import Mathlib.Tactic
import Mathlib.Logic.Relation

/-! The orbit of a point under a partial function. Where the points that have a successor are finitely many, the
orbit ends exactly when no point of it comes back to itself. Nothing here names a program. -/
namespace Neufbox.Orbit
open Relation
set_option autoImplicit false
set_option maxHeartbeats 250000

variable {α : Type} (next : α → Option α)

def Follows (a b : α) : Prop := next a = some b

/-- The points that are met from one on. -/
def Reached (a b : α) : Prop := ReflTransGen (Follows next) a b

inductive Ends : α → Prop
  | last {a : α} (h : next a = none) : Ends a
  | step {a b : α} (h : next a = some b) (hb : Ends b) : Ends a

def Returns (a : α) : Prop := TransGen (Follows next) a a

variable {next}

theorem Reached.tail {a b c : α} (h : Reached next a b) (hc : next b = some c) : Reached next a c :=
  ReflTransGen.tail h hc

theorem reached_of_none {a b : α} (ha : next a = none) (h : Reached next a b) : b = a := by
  rcases ReflTransGen.cases_head h with rfl | ⟨c, hac, -⟩
  · rfl
  · rw [Follows, ha] at hac
    cases hac

/-- The orbit has one last point. -/
theorem last_unique {a b c : α} (hb : Reached next a b) (hblast : next b = none) (hc : Reached next a c)
    (hclast : next c = none) : b = c := by
  induction hb using ReflTransGen.head_induction_on with
  | refl => exact (reached_of_none hblast hc).symm
  | @head a d had _ ih =>
    rcases ReflTransGen.cases_head hc with rfl | ⟨e, hae, hec⟩
    · rw [Follows, hclast] at had
      cases had
    · obtain rfl : d = e := Option.some.inj (had.symm.trans hae)
      exact ih hec

theorem Ends.not_returns {a b : α} (h : Ends next a) (hab : Reached next a b) : ¬ Returns next b := by
  induction h with
  | last ha =>
    intro hret
    obtain rfl := reached_of_none ha hab
    obtain ⟨c, hbc, -⟩ := TransGen.head'_iff.mp hret
    rw [Follows, ha] at hbc
    cases hbc
  | @step a c ha hc ih =>
    rcases ReflTransGen.cases_head hab with rfl | ⟨d, had, hdb⟩
    · -- a point that comes back is met from its successor
      intro hret
      obtain ⟨d, had, hda⟩ := TransGen.head'_iff.mp hret
      obtain rfl : c = d := Option.some.inj (ha.symm.trans had)
      exact ih hda hret
    · obtain rfl : c = d := Option.some.inj (ha.symm.trans had)
      exact ih hdb

/-- With finitely many points that have a successor. -/
theorem ends_of_not_returns {s : Set α} (hs : s.Finite) (hnext : ∀ a b, next a = some b → a ∈ s) {a₀ : α}
    (h : ∀ a, Reached next a₀ a → ¬ Returns next a) : Ends next a₀ := by
  let Point := {a : α // a ∈ s ∧ Reached next a₀ a}
  let After : Point → Point → Prop := fun b a => TransGen (Follows next) a.1 b.1
  have : Finite Point := (hs.subset fun a ha => ha.1).to_subtype
  have : IsTrans Point After := ⟨fun a b c hab hbc => hbc.trans hab⟩
  have : Std.Irrefl After := ⟨fun a ha => h a.1 a.2.2 ha⟩
  have hwf : WellFounded After := Finite.wellFounded_of_trans_of_irrefl After
  have hall : ∀ p : Point, Ends next p.1 := by
    intro p
    induction p using hwf.induction with
    | _ p ih =>
      cases hp : next p.1 with
      | none => exact Ends.last hp
      | some b =>
        have hb : Reached next a₀ b := Reached.tail p.2.2 hp
        refine Ends.step hp ?_
        cases hc : next b with
        | none => exact Ends.last hc
        | some c => exact ih ⟨b, hnext b c hc, hb⟩ (TransGen.single hp)
  cases h₀ : next a₀ with
  | none => exact Ends.last h₀
  | some b => exact hall ⟨a₀, hnext a₀ b h₀, ReflTransGen.refl⟩

theorem ends_iff {s : Set α} (hs : s.Finite) (hnext : ∀ a b, next a = some b → a ∈ s) (a₀ : α) :
    Ends next a₀ ↔ ∀ a, Reached next a₀ a → ¬ Returns next a :=
  ⟨fun h _ ha => h.not_returns ha, ends_of_not_returns hs hnext⟩

end Neufbox.Orbit
