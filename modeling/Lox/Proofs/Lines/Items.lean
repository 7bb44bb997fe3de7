import Lox.Proofs.Token.Joining

/-!
# Lines of tokens

A line is in a source if it is the first one or comes after a line end (`InSource`). Items of a
source are on such lines, and on later and later ones (`Scan.inSource_of_mem_items`,
`Scan.tokens_in_order`).
-/

namespace Lox

variable {item : Item}

/-- A line of a source. Lines count from one. -/
def InSource (source : List UInt8) (line : Nat) : Prop :=
  1 ≤ line ∧ line ≤ 1 + source.count Byte.newline

/-! ## Items -/

/-- The line of an item. -/
def Item.line : Item → Nat
  | .ok t => t.line
  | .error e => e.line

namespace Segment

theorem line_of_item? {s : Segment} {line : Nat} (h : s.item? line = some item) :
    Item.line item = line := by
  unfold item? at h
  split at h <;> cases h <;> rfl

/-- Items are on the lines that their segments take up. -/
theorem line_of_mem_items {line : Nat} {segments : List Segment} (h : item ∈ items line segments) :
    line ≤ Item.line item ∧ Item.line item ≤ line + lineEndsAll segments := by
  induction segments generalizing line with
  | nil =>
    rw [List.mem_singleton.mp h]
    exact ⟨Nat.le_refl _, Nat.le_refl _⟩
  | cons s rest ih =>
    rw [lineEndsAll]
    rcases List.mem_append.mp h with hs | hrest
    · rw [line_of_item? (Option.mem_toList.mp hs)]
      omega
    · have hlater := ih hrest
      omega

/-- No item is on an earlier line than the one before it. -/
theorem items_pairwise (line : Nat) (segments : List Segment) :
    (items line segments).Pairwise fun a b => Item.line a ≤ Item.line b := by
  induction segments generalizing line with
  | nil => exact List.pairwise_singleton _ _
  | cons s rest ih =>
    refine List.pairwise_append.mpr ⟨?_, ih _, ?_⟩
    · cases s.item? (line + s.lineEnds) with
      | none => exact .nil
      | some item => exact List.pairwise_singleton _ _
    · intro item hs later hlater
      rw [line_of_item? (Option.mem_toList.mp hs)]
      exact (line_of_mem_items hlater).1

end Segment

namespace Scan

variable {source : List UInt8}

/-- Items are on lines of the source. -/
theorem inSource_of_mem_items (h : item ∈ items source) : InSource source (Item.line item) := by
  have hline := Segment.line_of_mem_items h
  rw [Segment.lineEndsAll_cut] at hline
  exact hline

/-- The tokens of a source are on lines of the source. -/
theorem inSource_of_mem_tokens {t : Token} (h : t ∈ (ofSource source).tokens) :
    InSource source t.line :=
  inSource_of_mem_items (mem_tokens_ofItems.mp h)

/-- The lexical errors of a source are on lines of the source. -/
theorem inSource_of_mem_errors {e : LexError} (h : e ∈ (ofSource source).errors) :
    InSource source e.line :=
  inSource_of_mem_items (mem_errors_ofItems.mp h)

/-- Each token is on the line of the token before it, or on a later one. -/
theorem tokens_in_order (source : List UInt8) :
    (ofSource source).tokens.Pairwise fun s t => s.line ≤ t.line := by
  rw [ofSource, tokens_ofItems]
  refine List.Pairwise.filterMap token? ?_ (Segment.items_pairwise 1 (Segment.cut source))
  intro a b hab s hs t ht
  cases a with
  | error e => cases hs
  | ok s' =>
    cases b with
    | error e => cases ht
    | ok t' =>
      cases hs
      cases ht
      exact hab

end Scan

end Lox
