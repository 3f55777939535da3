import Neufbox.Library.RunAlong
import Neufbox.Library.Blocks

/-! # The event queue

Interrupt handlers enqueue event numbers into a FIFO of 64 bytes, and the readers of the one open handle
take them out. A read waits until the FIFO is not empty and then takes a record without a look at how
much it got: between the two another reader may have taken the last record, and then the number is what
the stack held. Every access to the FIFO is a step of its own. -/
namespace Neufbox.Events
open RunAlong Blocks
set_option autoImplicit false
set_option maxHeartbeats 250000
set_option maxRecDepth 120000

/-! ## The FIFO -/

/-- `enum event_id` as a word; of its members the driver knows one. -/
abbrev EventId := UInt32

def eventIdResetDown : EventId := 1

def idBytes (id : EventId) : List UInt8 := beBytes id.toNat

def idOfBytes (bs : List UInt8) : EventId := UInt32.ofNat (beWord bs)

def fifoSize : ℕ := 64

/-- What `kfifo_put` leaves, and how much it transfers. -/
def kfifoPut (fifo bs : List UInt8) : List UInt8 × ℕ :=
  let room := fifoSize - fifo.length
  (fifo ++ bs.take room, min bs.length room)

/-- What `kfifo_get` takes, and what it leaves. -/
def kfifoGet (fifo : List UInt8) (n : ℕ) : List UInt8 × List UInt8 := (fifo.take n, fifo.drop n)

/-! ## Readers and handlers -/

/-- Where a reader stands in `events_read`. A reader behind its `kfifo_get` has the number of the get
and the id in its variable. -/
inductive Reader
  | idle
  | waiting
  | ready
  | got (k : ℕ) (id : EventId)
  | tested (k : ℕ) (id : EventId)
  deriving DecidableEq, Repr

/-- The queue and its readers. The lists record the enqueued ids that were not dropped, the ids of the
gets, what was returned and which starts of `/sbin/reset_to_factory` there were, both with the number of
their get. -/
structure Queue where
  fifo : List UInt8
  readers : ℕ → Reader
  accepted : List EventId
  got : List EventId
  returned : List (ℕ × EventId)
  resets : List ℕ

inductive Op
  | enqueue (id : EventId)
  | read (r count : ℕ)
  | wait (r : ℕ)
  | signal (r : ℕ)
  | get (r : ℕ) (stack : EventId)
  | test (r : ℕ)
  | copy (r : ℕ)
  deriving DecidableEq, Repr

def Queue.setReader (q : Queue) (r : ℕ) (state : Reader) : Queue :=
  { q with readers := Function.update q.readers r state }

def eventEnqueue (id : EventId) (q : Queue) : Queue :=
  let put := kfifoPut q.fifo (idBytes id)
  { q with fifo := put.1, accepted := if put.2 ≠ 4 then q.accepted else q.accepted ++ [id] }

/-- The `kfifo_get`; `stack` is what the variable held before. -/
def takeRecord (r : ℕ) (stack : EventId) (q : Queue) : Queue :=
  let taken := kfifoGet q.fifo 4
  let id := idOfBytes (taken.1 ++ (idBytes stack).drop taken.1.length)
  { q with
    fifo := taken.2
    readers := Function.update q.readers r (.got q.got.length id)
    got := q.got ++ [id] }

def step (q : Queue) : Op → Queue
  | .enqueue id => eventEnqueue id q
  | .read r count => if q.readers r = .idle ∧ 4 ≤ count then q.setReader r .waiting else q
  | .wait r => if q.readers r = .waiting ∧ q.fifo.length ≠ 0 then q.setReader r .ready else q
  | .signal r => if q.readers r = .waiting then q.setReader r .idle else q
  | .get r stack => if q.readers r = .ready then takeRecord r stack q else q
  | .test r =>
      match q.readers r with
      | .got k id =>
          { q.setReader r (.tested k id) with resets := if id = eventIdResetDown then q.resets ++ [k] else q.resets }
      | _ => q
  | .copy r =>
      match q.readers r with
      | .tested k id => { q.setReader r .idle with returned := q.returned ++ [(k, id)] }
      | _ => q

def eventsInit : Queue := ⟨[], fun _ => .idle, [], [], [], []⟩

def after (ops : List Op) : Queue := runSteps step eventsInit ops

/-! ## Delivery -/

/-- The reads return what was enqueued. The FIFO holds the ids that were accepted and not taken yet. -/
structure Delivers (q : Queue) : Prop where
  order : ∃ rest : List EventId, q.accepted = q.got ++ rest ∧ q.fifo = rest.flatMap idBytes
  returned : ∀ p ∈ q.returned, q.got[p.1]? = some p.2
  once : (q.returned.map Prod.fst).Nodup
  enqueued : ∀ p ∈ q.returned, p.2 ∈ q.accepted
  resets : ∀ k ∈ q.resets, q.got[k]? = some eventIdResetDown ∧ eventIdResetDown ∈ q.accepted

/-- A get finds a record. -/
def GetFinds (q : Queue) : Op → Prop
  | .get r _ => q.readers r = .ready → q.fifo ≠ []
  | _ => True

/-! ## Records -/

theorem idBytes_length (id : EventId) : (idBytes id).length = 4 := rfl

theorem idOfBytes_idBytes (id : EventId) : idOfBytes (idBytes id) = id := by
  rw [idOfBytes, idBytes, beWord_beBytes id.toNat_lt, UInt32.ofNat_toNat]

theorem records_length (ids : List EventId) : (ids.flatMap idBytes).length = 4 * ids.length := by
  induction ids with
  | nil => rfl
  | cons id ids ih =>
    rw [List.flatMap_cons, List.length_append, idBytes_length, ih, List.length_cons]
    omega

/-- A record fits as a whole or not at all. -/
theorem kfifoPut_record {ids : List EventId} (hfit : 4 * ids.length ≤ fifoSize) (id : EventId) :
    kfifoPut (ids.flatMap idBytes) (idBytes id) =
      if ids.length < 16 then ((ids ++ [id]).flatMap idBytes, 4) else (ids.flatMap idBytes, 0) := by
  have hsize : fifoSize = 64 := rfl
  rw [kfifoPut, records_length, idBytes_length, hsize]
  split
  · rw [List.flatMap_append, List.flatMap_singleton, List.take_of_length_le (by rw [idBytes_length]; omega)]
    congr 1
    omega
  · have hfull : 64 - 4 * ids.length = 0 := by omega
    rw [hfull, List.take_zero, List.append_nil]
    rfl

/-! ## What every step keeps -/

/-- The get a reader is behind of, and its id. -/
def Reader.held : Reader → Option (ℕ × EventId)
  | .got k id => some (k, id)
  | .tested k id => some (k, id)
  | _ => none

/-- A read returns the id of its get, and returns it once. -/
structure Consistent (q : Queue) : Prop where
  held : ∀ r k id, (q.readers r).held = some (k, id) → q.got[k]? = some id ∧ k ∉ q.returned.map Prod.fst
  apart : ∀ r r' k id id', (q.readers r).held = some (k, id) → (q.readers r').held = some (k, id') → r = r'
  returned : ∀ p ∈ q.returned, q.got[p.1]? = some p.2
  once : (q.returned.map Prod.fst).Nodup
  resets : ∀ k ∈ q.resets, q.got[k]? = some eventIdResetDown

section Consistent
variable {q : Queue}

/-- The readers after a step hold no more than before. -/
theorem Consistent.fewer (h : Consistent q) {readers : ℕ → Reader} (fifo : List UInt8) (accepted : List EventId)
    (hfewer : ∀ r p, (readers r).held = some p → (q.readers r).held = some p) :
    Consistent { q with readers := readers, fifo := fifo, accepted := accepted } where
  held r k id hr := h.held r k id (hfewer r _ hr)
  apart r r' k id id' hr hr' := h.apart r r' k id id' (hfewer r _ hr) (hfewer r' _ hr')
  returned := h.returned
  once := h.once
  resets := h.resets

theorem update_held_fewer (q : Queue) {r : ℕ} {state : Reader}
    (hstate : ∀ p, Reader.held state = some p → (q.readers r).held = some p) (r' : ℕ) (p : ℕ × EventId)
    (hp : ((Function.update q.readers r state) r').held = some p) : (q.readers r').held = some p := by
  by_cases hr : r' = r
  · subst hr
    rw [Function.update_self] at hp
    exact hstate p hp
  · rwa [Function.update_of_ne hr] at hp

theorem Consistent.setReader (h : Consistent q) {r : ℕ} {state : Reader}
    (hstate : ∀ p, state.held = some p → (q.readers r).held = some p) : Consistent (q.setReader r state) :=
  h.fewer q.fifo q.accepted (update_held_fewer q hstate)

theorem Consistent.takeRecord (h : Consistent q) (r : ℕ) (stack : EventId) : Consistent (takeRecord r stack q) := by
  have hold : ∀ {k : ℕ} {id : EventId}, q.got[k]? = some id → k < q.got.length := by
    intro k id hk
    exact (List.getElem?_eq_some_iff.mp hk).1
  have hkeep : ∀ {k : ℕ} {id id' : EventId}, q.got[k]? = some id → (q.got ++ [id'])[k]? = some id := by
    intro k id id' hk
    rw [List.getElem?_append_left (hold hk)]
    exact hk
  have hnew : q.got.length ∉ q.returned.map Prod.fst := by
    intro hmem
    obtain ⟨p, hp, heq⟩ := List.mem_map.mp hmem
    have hlt := hold (h.returned p hp)
    omega
  have hreader : ∀ r' k id, ((Events.takeRecord r stack q).readers r').held = some (k, id) →
      (r' = r ∧ k = q.got.length ∧ (Events.takeRecord r stack q).got[k]? = some id) ∨
        (q.readers r').held = some (k, id) := by
    intro r' k id hheld
    by_cases hr : r' = r
    · left
      subst hr
      have hself : (Events.takeRecord r' stack q).readers r' = _ := Function.update_self r' _ _
      rw [hself, Reader.held, Option.some_inj, Prod.mk.injEq] at hheld
      obtain ⟨rfl, rfl⟩ := hheld
      exact ⟨rfl, rfl, List.getElem?_concat_length⟩
    · right
      have hother : (Events.takeRecord r stack q).readers r' = q.readers r' := Function.update_of_ne hr _ _
      rwa [hother] at hheld
  refine ⟨?_, ?_, fun p hp => hkeep (h.returned p hp), h.once, fun k hk => hkeep (h.resets k hk)⟩
  · intro r' k id hheld
    rcases hreader r' k id hheld with ⟨-, rfl, hgot⟩ | hbefore
    · exact ⟨hgot, hnew⟩
    · exact ⟨hkeep (h.held r' k id hbefore).1, (h.held r' k id hbefore).2⟩
  · intro r₁ r₂ k id id' h₁ h₂
    rcases hreader r₁ k id h₁ with ⟨rfl, hk, -⟩ | hbefore₁
    · rcases hreader r₂ k id' h₂ with ⟨rfl, -, -⟩ | hbefore₂
      · rfl
      · have hlt := hold (h.held r₂ k id' hbefore₂).1
        omega
    · rcases hreader r₂ k id' h₂ with ⟨-, hk, -⟩ | hbefore₂
      · have hlt := hold (h.held r₁ k id hbefore₁).1
        omega
      · exact h.apart r₁ r₂ k id id' hbefore₁ hbefore₂

theorem Consistent.copy (h : Consistent q) {r k : ℕ} {id : EventId} (hr : q.readers r = .tested k id) :
    Consistent { q.setReader r .idle with returned := q.returned ++ [(k, id)] } := by
  have hheld : (q.readers r).held = some (k, id) := by rw [hr]; rfl
  obtain ⟨hgot, hfresh⟩ := h.held r k id hheld
  have hidle : ∀ p, Reader.held .idle = some p → (q.readers r).held = some p := fun p hp => by cases hp
  have hfewer := update_held_fewer q hidle
  refine ⟨?_, ?_, ?_, ?_, h.resets⟩
  · intro r' k' id' hr'
    have hbefore := hfewer r' _ hr'
    refine ⟨(h.held r' k' id' hbefore).1, ?_⟩
    have hne : k' ≠ k := by
      rintro rfl
      obtain rfl := h.apart r' r k' id' id hbefore hheld
      have hself : (q.setReader r' .idle).readers r' = .idle := Function.update_self r' _ _
      rw [hself] at hr'
      cases hr'
    rw [List.map_append, List.mem_append, not_or]
    exact ⟨(h.held r' k' id' hbefore).2, by simpa using hne⟩
  · intro r₁ r₂ k' id₁ id₂ h₁ h₂
    exact h.apart r₁ r₂ k' id₁ id₂ (hfewer r₁ _ h₁) (hfewer r₂ _ h₂)
  · intro p hp
    rcases List.mem_append.mp hp with hp | hp
    · exact h.returned p hp
    · rw [List.mem_singleton.mp hp]
      exact hgot
  · rw [List.map_append, List.map_singleton]
    exact List.Nodup.append h.once (List.nodup_singleton k) (by simpa using hfresh)

theorem Consistent.step (h : Consistent q) (op : Op) : Consistent (step q op) := by
  cases op with
  | enqueue id => exact h.fewer _ _ fun _ _ hp => hp
  | read r count =>
    rw [Events.step]
    split
    · exact h.setReader fun p hp => by cases hp
    · exact h
  | wait r =>
    rw [Events.step]
    split
    · exact h.setReader fun p hp => by cases hp
    · exact h
  | signal r =>
    rw [Events.step]
    split
    · exact h.setReader fun p hp => by cases hp
    · exact h
  | get r stack =>
    rw [Events.step]
    split
    · exact h.takeRecord r stack
    · exact h
  | test r =>
    rw [Events.step]
    split
    · rename_i k id hr
      have hheld : (q.readers r).held = some (k, id) := by rw [hr]; rfl
      have hset : Consistent (q.setReader r (.tested k id)) := h.setReader fun p hp => by rw [hheld]; exact hp
      refine ⟨hset.held, hset.apart, hset.returned, hset.once, ?_⟩
      intro j hj
      split at hj
      · rename_i hreset
        rcases List.mem_append.mp hj with hj | hj
        · exact h.resets j hj
        · rw [List.mem_singleton.mp hj, ← hreset]
          exact (h.held r k id hheld).1
      · exact h.resets j hj
    · exact h
  | copy r =>
    rw [Events.step]
    split
    · rename_i k id hr
      exact h.copy hr
    · exact h

end Consistent

theorem consistent_init : Consistent eventsInit where
  held _ _ _ h := by cases h
  apart _ _ _ _ _ h := by cases h
  returned := by simp [eventsInit]
  once := List.nodup_nil
  resets := by simp [eventsInit]

theorem after_consistent (ops : List Op) : Consistent (after ops) :=
  run_preserves Consistent ops (fun _ op h => h.step op) consistent_init

/-! ## The order of the ids -/

/-- What is enqueued is taken in order. -/
structure InOrder (q : Queue) : Prop where
  room : q.fifo.length ≤ fifoSize
  order : ∃ rest : List EventId, q.accepted = q.got ++ rest ∧ q.fifo = rest.flatMap idBytes

section InOrder
variable {q : Queue}

theorem InOrder.eventEnqueue (h : InOrder q) (id : EventId) : InOrder (eventEnqueue id q) := by
  obtain ⟨hroom, rest, haccepted, hfifo⟩ := h
  have hsize : fifoSize = 64 := rfl
  rw [hfifo, records_length] at hroom
  have hput := kfifoPut_record hroom id
  rw [← hfifo] at hput
  by_cases hfree : rest.length < 16
  · rw [if_pos hfree] at hput
    have hstate : Events.eventEnqueue id q =
        { q with fifo := (rest ++ [id]).flatMap idBytes, accepted := q.accepted ++ [id] } := by
      simp only [Events.eventEnqueue, hput, ne_eq, not_true_eq_false, if_false]
    rw [hstate]
    refine ⟨?_, rest ++ [id], ?_, rfl⟩
    · show ((rest ++ [id]).flatMap idBytes).length ≤ _
      rw [records_length, List.length_append, List.length_singleton]
      omega
    · show q.accepted ++ [id] = _
      rw [haccepted, List.append_assoc]
  · rw [if_neg hfree] at hput
    have hstate : Events.eventEnqueue id q = q := by
      simp only [Events.eventEnqueue, hput]
      rfl
    rw [hstate]
    exact ⟨by rw [hfifo, records_length]; exact hroom, rest, haccepted, hfifo⟩

theorem InOrder.takeRecord (h : InOrder q) (hne : q.fifo ≠ []) (r : ℕ) (stack : EventId) :
    InOrder (takeRecord r stack q) := by
  obtain ⟨hroom, rest, haccepted, hfifo⟩ := h
  cases rest with
  | nil => exact absurd hfifo hne
  | cons id rest =>
    rw [List.flatMap_cons] at hfifo
    have htake : q.fifo.take 4 = idBytes id := by rw [hfifo, List.take_left' (idBytes_length id)]
    have hdrop : q.fifo.drop 4 = rest.flatMap idBytes := by rw [hfifo, List.drop_left' (idBytes_length id)]
    have hid : idOfBytes (q.fifo.take 4 ++ (idBytes stack).drop (q.fifo.take 4).length) = id := by
      rw [htake, idBytes_length, List.drop_of_length_le (idBytes_length stack).le, List.append_nil, idOfBytes_idBytes]
    refine ⟨?_, rest, ?_, hdrop⟩
    · show (q.fifo.drop 4).length ≤ _
      rw [List.length_drop]
      omega
    · show q.accepted = (q.got ++ [idOfBytes (q.fifo.take 4 ++ (idBytes stack).drop (q.fifo.take 4).length)]) ++ rest
      rw [hid, haccepted, List.append_assoc]
      rfl

theorem InOrder.step (h : InOrder q) {op : Op} (hop : GetFinds q op) : InOrder (step q op) := by
  cases op with
  | enqueue id => exact h.eventEnqueue id
  | read r count =>
    rw [Events.step]
    split
    · exact ⟨h.room, h.order⟩
    · exact h
  | wait r =>
    rw [Events.step]
    split
    · exact ⟨h.room, h.order⟩
    · exact h
  | signal r =>
    rw [Events.step]
    split
    · exact ⟨h.room, h.order⟩
    · exact h
  | get r stack =>
    rw [Events.step]
    split
    · rename_i hready
      exact h.takeRecord (hop hready) r stack
    · exact h
  | test r =>
    rw [Events.step]
    split
    · exact ⟨h.room, h.order⟩
    · exact h
  | copy r =>
    rw [Events.step]
    split
    · exact ⟨h.room, h.order⟩
    · exact h

theorem delivers_of_inOrder (hcons : Consistent q) (h : InOrder q) : Delivers q := by
  obtain ⟨rest, haccepted, hfifo⟩ := h.order
  have hmem : ∀ {k : ℕ} {id : EventId}, q.got[k]? = some id → id ∈ q.accepted := by
    intro k id hk
    rw [haccepted]
    exact List.mem_append_left _ (List.mem_of_getElem? hk)
  exact ⟨⟨rest, haccepted, hfifo⟩, hcons.returned, hcons.once, fun p hp => hmem (hcons.returned p hp),
    fun k hk => ⟨hcons.resets k hk, hmem (hcons.resets k hk)⟩⟩

/-- A get from the empty FIFO brings an id that nobody enqueued. -/
theorem not_delivers_of_empty (h : Delivers q) {r : ℕ} {stack : EventId} (hready : q.readers r = .ready)
    (hempty : q.fifo = []) : ¬ Delivers (step q (.get r stack)) := by
  obtain ⟨rest, haccepted, hfifo⟩ := h.order
  have hrest : rest = [] := by
    have hlen := records_length rest
    rw [← hfifo, hempty, List.length_nil] at hlen
    exact List.eq_nil_of_length_eq_zero (by omega)
  intro hnext
  obtain ⟨rest', haccepted', -⟩ := hnext.order
  rw [step, if_pos hready] at haccepted'
  have hlen := congrArg List.length haccepted'
  have hbefore := congrArg List.length haccepted
  rw [hrest, List.append_nil] at hbefore
  change q.accepted.length = ((q.got ++ [_]) ++ rest').length at hlen
  rw [List.length_append, List.length_append, List.length_singleton] at hlen
  omega

end InOrder

theorem inOrder_init : InOrder eventsInit := ⟨by decide, [], rfl, rfl⟩

theorem after_inOrder {ops : List Op} (h : Along step GetFinds eventsInit ops) : InOrder (after ops) :=
  Along.preserves (fun _ _ hq hop => InOrder.step hq hop) inOrder_init h

/-- The reads return what was enqueued, in every state of a run, exactly when each of its gets finds a
record. -/
theorem events_delivered_iff (ops : List Op) :
    (∀ pre, pre <+: ops → Delivers (after pre)) ↔ Along step GetFinds eventsInit ops := by
  constructor
  · intro h
    induction ops using List.reverseRecOn with
    | nil => exact trivial
    | append_singleton ops op ih =>
      have hbefore := ih fun pre hpre => h pre (hpre.trans (List.prefix_append ops [op]))
      rw [along_append]
      refine ⟨hbefore, ?_, trivial⟩
      have hdelivers := h ops (List.prefix_append ops [op])
      have hnext := h (ops ++ [op]) (List.prefix_refl _)
      rw [after, runSteps_append] at hnext
      cases op with
      | get r stack =>
        intro hready hempty
        exact not_delivers_of_empty hdelivers hready hempty hnext
      | _ => trivial
  · rintro h pre ⟨post, rfl⟩
    exact delivers_of_inOrder (after_consistent pre) (after_inOrder (along_append.mp h).1)

/-- Two readers wait for one record; the second takes what its stack holds. -/
def strayReset : List Op :=
  [.enqueue 5, .read 0 4, .read 1 4, .wait 0, .wait 1, .get 0 0, .get 1 eventIdResetDown, .test 1]

theorem stray_reset_started : (after strayReset).resets = [1] ∧ (after strayReset).accepted = [5] ∧
    ¬ Delivers (after strayReset) := by
  refine ⟨by decide, by decide, ?_⟩
  intro h
  have hmem := (h.resets 1 (by decide)).2
  revert hmem
  decide

end Neufbox.Events
