import Mathlib.Data.List.Basic

/-! # Words between blanks

A text as a list of words with the blanks around them: `Text` has blanks in front and behind every word, where only
the last word may have none. -/
namespace Neufbox.Library.Words
set_option autoImplicit false
set_option maxHeartbeats 250000
set_option maxRecDepth 120000

variable {α T : Type}

/-- Only the last word may go without blanks behind it. -/
def Separated (items : List (T × List α)) : Prop := ∀ i ∈ items.dropLast, i.2 ≠ []

structure Text (isBlank : α → Bool) (T : Type) where
  lead : List α
  items : List (T × List α)
  lead_blank : ∀ b ∈ lead, isBlank b = true
  blank : ∀ i ∈ items, ∀ b ∈ i.2, isBlank b = true
  separated : Separated items

variable (word : T → List α)

def itemsText (items : List (T × List α)) : List α := items.flatMap fun i => word i.1 ++ i.2

def Text.text {isBlank : α → Bool} (t : Text isBlank T) : List α := t.lead ++ itemsText word t.items

@[simp] theorem itemsText_nil : itemsText word [] = [] := rfl

theorem itemsText_cons (i : T × List α) (items : List (T × List α)) :
    itemsText word (i :: items) = word i.1 ++ (i.2 ++ itemsText word items) := by
  rw [itemsText, List.flatMap_cons, List.append_assoc]
  rfl

theorem Separated.tail {i : T × List α} {items : List (T × List α)} (h : Separated (i :: items)) : Separated items := by
  intro j hj
  cases items with
  | nil => cases hj
  | cons k items => exact h j (by rw [List.dropLast_cons_cons]; exact List.mem_cons_of_mem _ hj)

/-- Behind a word come its blanks, or nothing. -/
theorem Separated.rest {i : T × List α} {items : List (T × List α)} (h : Separated (i :: items)) :
    i.2 = [] → items = [] := by
  intro hnil
  cases items with
  | nil => rfl
  | cons k items => exact absurd hnil (h i (by rw [List.dropLast_cons_cons]; exact List.mem_cons_self))

theorem Separated.head?_rest {isBlank : α → Bool} {i : T × List α} {items : List (T × List α)}
    (h : Separated (i :: items)) (hi : ∀ b ∈ i.2, isBlank b = true) :
    ∀ b ∈ (i.2 ++ itemsText word items).head?, isBlank b = true := by
  cases hws : i.2 with
  | nil =>
    rw [h.rest hws]
    intro b hb
    cases hb
  | cons b ws =>
    intro c hc
    rw [List.cons_append, List.head?_cons, Option.mem_some] at hc
    exact hc ▸ hi b (hws ▸ List.mem_cons_self)

theorem Separated.tail_rest {i : T × List α} {items : List (T × List α)} (h : Separated (i :: items)) :
    (i.2 ++ itemsText word items).tail = i.2.tail ++ itemsText word items := by
  cases hws : i.2 with
  | nil =>
    rw [h.rest hws]
    rfl
  | cons b ws => rfl

theorem dropWhile_blanks {isBlank : α → Bool} {lead text : List α} (hlead : ∀ b ∈ lead, isBlank b = true) :
    (lead ++ text).dropWhile isBlank = text.dropWhile isBlank := by
  induction lead with
  | nil => rfl
  | cons b lead ih =>
    rw [List.cons_append, List.dropWhile_cons_of_pos (hlead b List.mem_cons_self)]
    exact ih fun c hc => hlead c (List.mem_cons_of_mem _ hc)

end Neufbox.Library.Words
