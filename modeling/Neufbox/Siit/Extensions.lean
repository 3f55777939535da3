import Neufbox.Library.Orbit
import Neufbox.Siit.Bounds

/-! # The extension headers

The chain of headers in a packet, as the orbit of a place under "what is behind this header", and the loop of
`ip6_ip4` over it. The loop ends in its bounds exactly when no header on the way is one that it cannot pass: a header of
destination options that is longer than the packet is met for ever, and a routing header is read without a look at the
length. -/
namespace Neufbox.Siit
open Guarded Orbit Relation
set_option autoImplicit false
set_option maxHeartbeats 250000
set_option maxRecDepth 120000

/-! ## The chain -/

/-- A place in a packet, and the kind of the header there. -/
abbrev Place := ℕ × UInt8

section Chain
variable (src : List UInt8)

/-- Behind a header that is passed. -/
def next (p : Place) : Option Place :=
  if p.2 = nexthdrDest then
    if p.1 + optLen src p.1 ≤ src.length then some (p.1 + optLen src p.1, byte src p.1) else none
  else if p.2 = nexthdrRouting then
    if byte src (p.1 + 3) = 0 ∧ p.1 + optLen src p.1 ≤ src.length then some (p.1 + optLen src p.1, byte src p.1)
    else none
  else if p.2 = nexthdrFragment then if p.1 + 8 ≤ src.length then some (p.1 + 8, byte src p.1) else none
  else none

/-- Headers that are neither passed nor dropped: destination options that are longer than the packet, and a routing
header that ends before its fourth byte. -/
def Bad (p : Place) : Prop :=
  p.2 = nexthdrDest ∧ src.length < p.1 + optLen src p.1 ∨ p.2 = nexthdrRouting ∧ src.length < p.1 + 4

/-- No header on the way is such a one. -/
def ChainFits (p : Place) : Prop := ∀ q, Reached (next src) p q → ¬ Bad src q

abbrev IsProtocol (nh : UInt8) : Prop := nh ∈ [nexthdrIcmp, protoTcp, protoUdp, nexthdrNone]

theorem next_protocol {p : Place} (h : IsProtocol p.2) : next src p = none := by
  have hdest : p.2 ≠ nexthdrDest := fun heq => absurd (heq ▸ h : IsProtocol nexthdrDest) (by decide)
  have hrouting : p.2 ≠ nexthdrRouting := fun heq => absurd (heq ▸ h : IsProtocol nexthdrRouting) (by decide)
  have hfragment : p.2 ≠ nexthdrFragment := fun heq => absurd (heq ▸ h : IsProtocol nexthdrFragment) (by decide)
  rw [next, if_neg hdest, if_neg hrouting, if_neg hfragment]

theorem not_bad_protocol {p : Place} (h : IsProtocol p.2) : ¬ Bad src p := by
  rintro (⟨hdest, -⟩ | ⟨hrouting, -⟩)
  · exact absurd (hdest ▸ h : IsProtocol nexthdrDest) (by decide)
  · exact absurd (hrouting ▸ h : IsProtocol nexthdrRouting) (by decide)

theorem optLen_pos (i : ℕ) : 8 ≤ optLen src i := Nat.le_add_left _ _

/-- The places go up, and stay in the packet. -/
theorem next_bounds {p q : Place} (h : next src p = some q) : p.1 + 8 ≤ q.1 ∧ q.1 ≤ src.length := by
  have hopt := optLen_pos src p.1
  unfold next at h
  split_ifs at h with hdest hfit hrouting hfit hfragment hfit
  all_goals
    obtain rfl := Option.some.inj h
    constructor
  all_goals
    dsimp only
    omega

theorem not_bad_next {p q : Place} (h : next src p = some q) : ¬ Bad src p := by
  have hopt := optLen_pos src p.1
  unfold next at h
  rintro (⟨hdest, hlong⟩ | ⟨hrouting, hlong⟩)
  · rw [if_pos hdest, if_neg (by omega)] at h
    cases h
  · have hdest : p.2 ≠ nexthdrDest := by rw [hrouting]; decide
    rw [if_neg hdest, if_pos hrouting, if_neg (by omega)] at h
    cases h

theorem chainFits_next {p q : Place} (h : next src p = some q) : ChainFits src p ↔ ChainFits src q := by
  constructor
  · intro hall r hr
    exact hall r (ReflTransGen.head h hr)
  · intro hall r hr
    rcases ReflTransGen.cases_head hr with rfl | ⟨q', hq', hr⟩
    · exact not_bad_next src h
    · obtain rfl : q = q' := Option.some.inj (h.symm.trans hq')
      exact hall r hr

theorem chainFits_last {p : Place} (h : next src p = none) : ChainFits src p ↔ ¬ Bad src p := by
  constructor
  · intro hall
    exact hall p .refl
  · intro hbad q hq
    rwa [reached_of_none h hq]

end Chain

/-! ## The loop -/

section Loop
variable (src : List UInt8) (s : ℕ)

def Ext.place (st : Ext) : Place := (s + 40 + st.optsLen, st.nextHdr)

/-- What is left of the length is what is left of the packet. -/
structure Ext.Sound (st : Ext) : Prop where
  left : st.lenDelta = src.length - (s + 40 + st.optsLen : ℕ)
  inside : s + 40 + st.optsLen ≤ src.length

variable {src s} {st : Ext}

theorem pass_sound (hst : st.Sound src s)
    (hfit : s + 40 + st.optsLen + optLen src (s + 40 + st.optsLen) ≤ src.length) :
    (st.pass src s).Sound src s ∧ (st.pass src s).place s =
      (s + 40 + st.optsLen + optLen src (s + 40 + st.optsLen), byte src (s + 40 + st.optsLen)) := by
  have hleft := hst.left
  refine ⟨⟨?_, ?_⟩, Prod.ext ?_ rfl⟩
  · simp only [Ext.pass]
    omega
  · simp only [Ext.pass]
    omega
  · simp only [Ext.place, Ext.pass]
    omega

/-- A header with something behind it is passed. -/
theorem extStep_next {q : Place} (hst : st.Sound src s) (h : next src (st.place s) = some q) :
    ∃ st', extStep src s st = .ok st' ∧ st'.Sound src s ∧ st'.place s = q := by
  have hleft := hst.left
  have hopt := optLen_pos src (s + 40 + st.optsLen)
  unfold next Ext.place at h
  dsimp only at h
  unfold extStep
  dsimp only
  split_ifs at h with hdest hfit hrouting hfit hfragment hfit
  · obtain rfl := Option.some.inj h
    rw [if_pos hdest, inside_ok (by omega), ok_bind, if_pos (by omega)]
    exact ⟨_, rfl, pass_sound hst hfit⟩
  · obtain rfl := Option.some.inj h
    have hzero : ¬ byte src (s + 40 + st.optsLen + 3) ≠ 0 := not_not.mpr hfit.1
    rw [if_neg hdest, if_pos hrouting, inside_ok (by omega), ok_bind, if_neg hzero, if_pos (by omega)]
    exact ⟨_, rfl, pass_sound hst hfit.2⟩
  · obtain rfl := Option.some.inj h
    rw [if_neg hdest, if_neg hrouting, if_pos hfragment, if_pos (by omega), inside_ok (by omega), ok_bind]
    refine ⟨_, rfl, ⟨?_, ?_⟩, Prod.ext ?_ rfl⟩
    · dsimp only
      omega
    · dsimp only
      omega
    · simp only [Ext.place]
      omega

/-- Where the chain stops at a header that can be read, the packet is dropped. -/
theorem extStep_dropped (hst : st.Sound src s) (h : next src (st.place s) = none)
    (hbad : ¬ Bad src (st.place s)) : extStep src s st = .error .dropped := by
  have hleft := hst.left
  unfold next Ext.place at h
  unfold Bad Ext.place at hbad
  dsimp only at h hbad
  unfold extStep
  dsimp only
  split_ifs at h with hdest hfit hrouting hfit hfragment hfit
  · exact absurd (Or.inl ⟨hdest, by omega⟩) hbad
  · have hlong : s + 40 + st.optsLen + 4 ≤ src.length := by
      by_contra hshort
      exact hbad (Or.inr ⟨hrouting, by omega⟩)
    rw [if_neg hdest, if_pos hrouting, inside_ok hlong, ok_bind]
    by_cases hzero : byte src (s + 40 + st.optsLen + 3) ≠ 0
    · rw [if_pos hzero]
      rfl
    · have hnot : ¬ s + 40 + st.optsLen + optLen src (s + 40 + st.optsLen) ≤ src.length :=
        fun hlong => hfit ⟨not_not.mp hzero, hlong⟩
      rw [if_neg hzero, if_neg (by omega)]
      rfl
  · rw [if_neg hdest, if_neg hrouting, if_pos hfragment, if_neg (by omega)]
  · rw [if_neg hdest, if_neg hrouting, if_neg hfragment]

/-- Destination options that do not fit are met again, with a length left that goes down, in every further turn. -/
theorem extLoop_stuck (n : ℕ) (hdest : st.nextHdr = nexthdrDest) (hlong : s + 40 + st.optsLen + 2 ≤ src.length)
    (hleft : st.lenDelta < optLen src (s + 40 + st.optsLen)) : extLoop src s n st = .error .endless := by
  induction n generalizing st with
  | zero => rfl
  | succ n ih =>
    have hends : ¬ st.ends := by
      intro hends
      rw [Ext.ends, hdest] at hends
      exact absurd hends (by decide)
    have hstep : extStep src s st = .ok { st with lenDelta := st.lenDelta - optLen src (s + 40 + st.optsLen) } := by
      unfold extStep
      dsimp only
      rw [if_pos hdest, inside_ok hlong, ok_bind, if_neg (by omega)]
      rfl
    rw [extLoop, if_neg hends, hstep, ok_bind]
    apply ih
    · exact hdest
    · exact hlong
    · dsimp only
      omega

theorem extLoop_bad (n : ℕ) (hst : st.Sound src s) (hbad : Bad src (st.place s)) : ¬ SafeRun (extLoop src s n st) := by
  have hleft := hst.left
  cases n with
  | zero => simp [extLoop]
  | succ n =>
    have hends : ¬ st.ends := fun hends => not_bad_protocol src (p := st.place s) hends hbad
    have hread : ∀ k, ¬ s + 40 + st.optsLen + k ≤ src.length → ∀ f : Unit → Run Ext,
        ¬ SafeRun (inside src (s + 40 + st.optsLen) k >>= f) :=
      fun k hk f => not_safe_bind ((inside_needs src (s + 40 + st.optsLen) k).fails hk) f
    rcases hbad with ⟨hdest, hshort⟩ | ⟨hrouting, hshort⟩
    · by_cases hlong : s + 40 + st.optsLen + 2 ≤ src.length
      · have hfit : src.length < s + 40 + st.optsLen + optLen src (s + 40 + st.optsLen) := hshort
        rw [extLoop_stuck (n + 1) hdest hlong (by omega)]
        simp
      · have hdest' : st.nextHdr = nexthdrDest := hdest
        rw [extLoop, if_neg hends]
        apply not_safe_bind
        unfold extStep
        dsimp only
        rw [if_pos hdest']
        exact hread 2 hlong _
    · have hrouting' : st.nextHdr = nexthdrRouting := hrouting
      have hdest : st.nextHdr ≠ nexthdrDest := by rw [hrouting']; decide
      have hshort' : src.length < s + 40 + st.optsLen + 4 := hshort
      rw [extLoop, if_neg hends]
      apply not_safe_bind
      unfold extStep
      dsimp only
      rw [if_neg hdest, if_pos hrouting']
      exact hread 4 (by omega) _

/-- The end of the chain, where there is one. -/
def EndsAt (src : List UInt8) (p q : Place) : Prop := Reached (next src) p q ∧ IsProtocol q.2

/-- What the loop gives, with a turn for every byte that is left. -/
theorem extLoop_spec {n : ℕ} (hst : st.Sound src s) (hn : src.length - (s + 40 + st.optsLen) < n) :
    (ChainFits src (st.place s) → (∃ st', extLoop src s n st = .ok st' ∧ st'.Sound src s ∧
        EndsAt src (st.place s) (st'.place s)) ∨
      extLoop src s n st = .error .dropped ∧ ∀ q, ¬ EndsAt src (st.place s) q) ∧
    (¬ ChainFits src (st.place s) → ¬ SafeRun (extLoop src s n st)) := by
  induction n generalizing st with
  | zero => omega
  | succ n ih =>
    by_cases hends : st.ends
    · have hprotocol : IsProtocol (st.place s).2 := hends
      have hloop := extLoop_ends src s n hends
      constructor
      · intro _
        exact Or.inl ⟨st, hloop, hst, .refl, hprotocol⟩
      · intro hbad
        exact absurd ((chainFits_last src (next_protocol src hprotocol)).mpr (not_bad_protocol src hprotocol)) hbad
    · cases hnext : next src (st.place s) with
      | some q =>
        obtain ⟨st', hstep, hst', rfl⟩ := extStep_next hst hnext
        have hup := (next_bounds src hnext).1
        have hin := hst'.inside
        simp only [Ext.place] at hup
        have hrest := ih hst' (by omega)
        have hloop : extLoop src s (n + 1) st = extLoop src s n st' := by rw [extLoop, if_neg hends, hstep, ok_bind]
        have hhead : ∀ q, EndsAt src (st.place s) q ↔ EndsAt src (st'.place s) q := by
          intro q
          apply and_congr_left
          intro hprotocol
          constructor
          · intro hr
            rcases ReflTransGen.cases_head hr with rfl | ⟨r, hr', hr⟩
            · exact absurd hprotocol hends
            · obtain rfl : st'.place s = r := Option.some.inj (hnext.symm.trans hr')
              exact hr
          · exact ReflTransGen.head hnext
        simp only [chainFits_next src hnext, hloop, hhead]
        exact hrest
      | none =>
        constructor
        · intro hfits
          have hbad := (chainFits_last src hnext).mp hfits
          refine Or.inr ⟨?_, ?_⟩
          · rw [extLoop, if_neg hends, extStep_dropped hst hnext hbad, error_bind]
          · rintro q ⟨hr, hprotocol⟩
            rw [reached_of_none hnext hr] at hprotocol
            exact hends hprotocol
        · intro hfits
          apply extLoop_bad (n + 1) hst
          by_contra hbad
          exact hfits ((chainFits_last src hnext).mpr hbad)

end Loop

/-! ## All headers -/

section Headers
variable (src : List UInt8) (s : ℕ)

/-- The place behind the IPv6 header and the hop-by-hop options, which come first. -/
def start : Option Place :=
  if byte src (s + 6) = nexthdrHop then
    if s + 40 + optLen src (s + 40) ≤ src.length then some (s + 40 + optLen src (s + 40), byte src (s + 40)) else none
  else some (s + 40, byte src (s + 6))

/-- All headers can be read, and none makes the loop turn for ever. Where nothing is left, the loop is not entered. -/
def HeadersFit : Prop :=
  (byte src (s + 6) = nexthdrHop → s + 42 ≤ src.length) ∧
    ∀ p, start src s = some p → p.1 < src.length → ChainFits src p

/-- The place behind all headers. -/
def Behind (q : Place) : Prop :=
  ∃ p, start src s = some p ∧ if p.1 < src.length then EndsAt src p q else q = p

variable {src s}

theorem Behind.unique {q q' : Place} (h : Behind src s q) (h' : Behind src s q') : q = q' := by
  obtain ⟨p, hp, hq⟩ := h
  obtain ⟨p', hp', hq'⟩ := h'
  obtain rfl : p = p' := Option.some.inj (hp.symm.trans hp')
  split_ifs at hq hq' with hleft
  · exact last_unique hq.1 (next_protocol src hq.2) hq'.1 (next_protocol src hq'.2)
  · rw [hq, hq']

theorem hopByHop_spec {len : ℤ} (hlen : len = src.length - s) (hlong : s + 40 ≤ src.length) :
    let r := hopByHop src s ⟨len - 40, 0, byte src (s + 6), 0, 0⟩
    (∃ st, r = .ok st ∧ st.Sound src s ∧ start src s = some (st.place s)) ∧
        (byte src (s + 6) = nexthdrHop → s + 42 ≤ src.length) ∨
      r = .error .dropped ∧ start src s = none ∧ s + 42 ≤ src.length ∨
      ¬ SafeRun r ∧ byte src (s + 6) = nexthdrHop ∧ ¬ s + 42 ≤ src.length := by
  intro r
  have hfirst : (⟨len - 40, 0, byte src (s + 6), 0, 0⟩ : Ext).Sound src s := by
    refine ⟨?_, hlong⟩
    dsimp only
    omega
  by_cases hhop : byte src (s + 6) = nexthdrHop
  · have hr : r = inside src (s + 40) 2 >>= fun _ => if 0 ≤ len - 40 - optLen src (s + 40) then
        pure ((⟨len - 40, 0, byte src (s + 6), 0, 0⟩ : Ext).pass src s) else throw .dropped := if_pos hhop
    by_cases hread : s + 42 ≤ src.length
    · rw [hr, inside_ok (by omega), ok_bind, start, if_pos hhop]
      by_cases hfit : s + 40 + optLen src (s + 40) ≤ src.length
      · left
        obtain ⟨hsound, hplace⟩ := pass_sound hfirst hfit
        rw [if_pos (by omega), if_pos hfit]
        exact ⟨⟨_, rfl, hsound, by rw [hplace]; rfl⟩, fun _ => hread⟩
      · right
        left
        rw [if_neg (by omega), if_neg hfit]
        exact ⟨rfl, rfl, hread⟩
    · right
      right
      refine ⟨?_, hhop, hread⟩
      rw [hr]
      exact not_safe_bind ((inside_needs src (s + 40) 2).fails (by omega)) _
  · left
    have hr : r = .ok ⟨len - 40, 0, byte src (s + 6), 0, 0⟩ := if_neg hhop
    refine ⟨⟨_, hr, hfirst, ?_⟩, fun h => absurd h hhop⟩
    rw [start, if_neg hhop]
    rfl

/-- The headers of a packet are passed, or it is dropped, or they do not fit. -/
theorem headers_spec {len : ℤ} (hlen : len = src.length - s) (hlong : s + 40 ≤ src.length) :
    let r := hopByHop src s ⟨len - 40, 0, byte src (s + 6), 0, 0⟩ >>= fun st =>
      if 0 < st.lenDelta then extLoop src s (len.toNat + 1) st else pure st
    (HeadersFit src s → (∃ st, r = .ok st ∧ st.Sound src s ∧ Behind src s (st.place s)) ∨
      r = .error .dropped ∧ ∀ q, ¬ Behind src s q) ∧
    (¬ HeadersFit src s → ¬ SafeRun r) := by
  intro r
  rcases hopByHop_spec hlen hlong with ⟨⟨st, hst, hsound, hstart⟩, hread⟩ | ⟨hdrop, hstart, hread⟩ | ⟨hbad, hhop, hread⟩
  · have hr : r = if 0 < st.lenDelta then extLoop src s (len.toNat + 1) st else pure st := by
      show hopByHop src s _ >>= _ = _
      rw [hst, ok_bind]
    have hleft := hsound.left
    have hin := hsound.inside
    have hfits : HeadersFit src s ↔ (s + 40 + st.optsLen < src.length → ChainFits src (st.place s)) := by
      rw [HeadersFit, and_iff_right hread]
      constructor
      · intro hall
        exact hall _ hstart
      · intro hall p hp
        obtain rfl : st.place s = p := Option.some.inj (hstart.symm.trans hp)
        exact hall
    have hbehind : ∀ q, Behind src s q ↔
        if s + 40 + st.optsLen < src.length then EndsAt src (st.place s) q else q = st.place s := by
      intro q
      constructor
      · rintro ⟨p, hp, hq⟩
        obtain rfl : st.place s = p := Option.some.inj (hstart.symm.trans hp)
        exact hq
      · intro hq
        exact ⟨_, hstart, hq⟩
    simp only [hr, hfits, hbehind]
    by_cases hmore : s + 40 + st.optsLen < src.length
    · obtain ⟨hok, hnot⟩ := extLoop_spec hsound (n := len.toNat + 1) (by omega)
      simp only [if_pos (show 0 < st.lenDelta by omega), hmore, if_true, true_implies]
      exact ⟨hok, hnot⟩
    · simp only [if_neg (show ¬ 0 < st.lenDelta by omega), hmore, if_false, false_implies, true_implies,
        not_true_eq_false]
      exact ⟨Or.inl ⟨st, rfl, hsound, rfl⟩, trivial⟩
  · have hr : r = .error .dropped := by
      show hopByHop src s _ >>= _ = _
      rw [hdrop, error_bind]
    constructor
    · intro _
      refine Or.inr ⟨hr, ?_⟩
      rintro q ⟨p, hp, -⟩
      rw [hstart] at hp
      cases hp
    · intro hfits
      refine absurd ⟨fun _ => hread, ?_⟩ hfits
      intro p hp
      rw [hstart] at hp
      cases hp
  · constructor
    · intro hfits
      exact absurd (hfits.1 hhop) hread
    · intro _
      exact not_safe_bind hbad _

end Headers

end Neufbox.Siit
