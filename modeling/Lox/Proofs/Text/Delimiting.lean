import Mathlib.Data.List.Basic

/-!
# Texts that show where they end

A text that is written for a value can be told from that of any other value, even with something
behind it, if what comes behind begins with a character that stops it (`Shows`). This goes over from
values to lists of values with something before each and something after the last (`Shows.list`).
-/

namespace Lox

/-- What comes behind a text begins with a character that stops the text, if it begins at all. -/
def Stops (stop : Char → Prop) (rest : List Char) : Prop :=
  ∀ c t, rest = c :: t → stop c

/-- The text of `a` differs from the texts of all other values that satisfy `P`, and shows where it
ends, in front of what stops it. -/
def Shows {α : Type} (stop : Char → Prop) (P : α → Prop) (write : α → List Char) (a : α) : Prop :=
  ∀ a' r r', P a → P a' → Stops stop r → Stops stop r' → write a ++ r = write a' ++ r' → a = a' ∧
    r = r'

variable {stop : Char → Prop}

theorem stops_nil : Stops stop [] :=
  fun _ _ h => nomatch h

theorem stops_cons {c : Char} (h : stop c) (t : List Char) : Stops stop (c :: t) := by
  rintro d u ⟨⟩
  exact h

/-- Texts of characters that do not stop a text end at the first one that does. -/
theorem eq_of_append_eq {t t' r r' : List Char} (ht : ∀ c ∈ t, ¬stop c) (ht' : ∀ c ∈ t', ¬stop c)
    (hr : Stops stop r) (hr' : Stops stop r') (h : t ++ r = t' ++ r') : t = t' ∧ r = r' := by
  induction t generalizing t' with
  | nil =>
    cases t' with
    | nil => exact ⟨rfl, h⟩
    | cons c t' => exact absurd (hr c _ h) (ht' c List.mem_cons_self)
  | cons c t ih =>
    cases t' with
    | nil => exact absurd (hr' c _ h.symm) (ht c List.mem_cons_self)
    | cons c' t' =>
      obtain ⟨rfl, htail⟩ := List.cons.inj h
      obtain ⟨hc, ht⟩ := List.forall_mem_cons.mp ht
      obtain ⟨-, ht'⟩ := List.forall_mem_cons.mp ht'
      obtain ⟨rfl, rfl⟩ := ih ht ht' htail
      exact ⟨rfl, rfl⟩

namespace Shows

variable {α : Type} {P : α → Prop} {write : α → List Char} {sep fin : List Char}

theorem stops_list (hsep : ∀ t, Stops stop (sep ++ t)) (hfin : ∀ t, Stops stop (fin ++ t))
    (items : List α) (r : List Char) :
    Stops stop ((items.flatMap fun a => sep ++ write a) ++ (fin ++ r)) := by
  cases items with
  | nil => exact hfin r
  | cons a rest =>
    rw [List.flatMap_cons, List.append_assoc, List.append_assoc]
    exact hsep _

/-- Items with `sep` before each, and `fin` after the last one. -/
theorem list (hsep : ∀ t, Stops stop (sep ++ t)) (hfin : ∀ t, Stops stop (fin ++ t))
    (hne : ∀ t t', sep ++ t ≠ fin ++ t') {items items' : List α}
    (hitems : ∀ a ∈ items, Shows stop P write a) (hP : ∀ a ∈ items, P a) (hP' : ∀ a ∈ items', P a)
    {r r' : List Char} (h : (items.flatMap fun a => sep ++ write a) ++ (fin ++ r) =
      (items'.flatMap fun a => sep ++ write a) ++ (fin ++ r')) : items = items' ∧ r = r' := by
  induction items generalizing items' with
  | nil =>
    cases items' with
    | nil => exact ⟨rfl, List.append_cancel_left h⟩
    | cons a' rest' =>
      rw [List.flatMap_cons, List.append_assoc, List.append_assoc] at h
      exact absurd h.symm (hne _ _)
  | cons a rest ih =>
    obtain ⟨hshows, hitems⟩ := List.forall_mem_cons.mp hitems
    obtain ⟨ha, hP⟩ := List.forall_mem_cons.mp hP
    cases items' with
    | nil =>
      rw [List.flatMap_cons, List.append_assoc, List.append_assoc] at h
      exact absurd h (hne _ _)
    | cons a' rest' =>
      obtain ⟨ha', htail⟩ := List.forall_mem_cons.mp hP'
      simp only [List.flatMap_cons, List.append_assoc] at h
      have hitem := List.append_cancel_left h
      obtain ⟨rfl, hrest⟩ :=
        hshows a' _ _ ha ha' (stops_list hsep hfin rest r) (stops_list hsep hfin rest' r') hitem
      obtain ⟨rfl, rfl⟩ := ih hitems hP htail hrest
      exact ⟨rfl, rfl⟩

end Shows

/-- Texts put together with a text between them, one after the other. -/
theorem intercalate_cons (sep t : List Char) (rest : List (List Char)) :
    sep.intercalate (t :: rest) = t ++ rest.flatMap fun u => sep ++ u := by
  induction rest generalizing t with
  | nil => simp
  | cons u rest ih =>
    rw [List.intercalate_cons_cons, ih, List.flatMap_cons, List.append_assoc, List.append_assoc]

end Lox
