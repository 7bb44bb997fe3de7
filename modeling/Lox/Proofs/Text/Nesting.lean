import Lox.Proofs.Text.Delimiting
import Lox.Syntax.Printer

/-!
# Nested lists

A nested list is a word, or a group of nested lists between parentheses with blanks between them.
There are no blanks, line ends and parentheses in a word, so a nested list can be read off its text
(`Nest.shows_write`), and so can a sequence of nested lists with one on each line
(`Nest.eq_of_lines_eq`).
-/

namespace Lox

namespace Nest

/-- Whether a character stands between words. -/
def divides (c : Char) : Bool :=
  c == ' ' || c == '\n' || c == '(' || c == ')'

/-- A text that has something in it, but nothing that divides words. -/
def IsWord (text : String) : Prop :=
  (!text.toList.isEmpty && text.toList.all fun c => !divides c) = true

instance : DecidablePred IsWord :=
  fun _ => instDecidableEqBool _ _

theorem isWord_iff {text : String} :
    IsWord text ↔ text.toList ≠ [] ∧ ∀ c ∈ text.toList, ¬divides c := by
  simp [IsWord]

end Nest

/-- A word or a group of nested lists. -/
inductive Nest where
  | word (text : String) (isWord : Nest.IsWord text := by decide)
  | group (parts : List Nest)

namespace Nest

mutual

/-- The text of a nested list. -/
def write : Nest → String
  | .word text _ => text
  | .group parts => parenthesize (writeAll parts)

/-- The texts of nested lists. -/
def writeAll : List Nest → List String
  | [] => []
  | n :: rest => write n :: writeAll rest

end

theorem writeAll_eq (parts : List Nest) : writeAll parts = parts.map write := by
  induction parts with
  | nil => rfl
  | cons n rest ih => rw [writeAll, ih, List.map_cons]

/-! ## Reading a nested list off its text -/

variable {parts parts' : List Nest}

/-- Nested lists with a character between them, up to a closing parenthesis. -/
def upTo (sep : Char) : List Nest → List Char
  | [] => [')']
  | n :: rest => n.write.toList ++ ((rest.flatMap fun p => [sep] ++ p.write.toList) ++ [')'])

theorem toList_intercalate_close (sep : Char) (parts : List Nest) :
    ((String.singleton sep).intercalate (writeAll parts)).toList ++ [')'] = upTo sep parts := by
  rw [writeAll_eq, String.toList_intercalate, List.map_map]
  cases parts with
  | nil => rfl
  | cons n rest =>
    rw [List.map_cons, intercalate_cons, List.flatMap_map]
    simp [upTo]

/-- A group is a bracket and its parts up to the closing bracket. -/
theorem toList_write_group (parts : List Nest) :
    (group parts).write.toList = '(' :: upTo ' ' parts := by
  rw [write, parenthesize, ← toList_intercalate_close, String.toList_append, String.toList_append]
  rfl

theorem word_ne_cons {text : String} (h : IsWord text) {c : Char} (hc : divides c)
    (r t : List Char) : text.toList ++ r ≠ c :: t := by
  obtain ⟨hne, hchars⟩ := isWord_iff.mp h
  obtain ⟨c', cs, htext⟩ := List.exists_cons_of_ne_nil hne
  rw [htext] at hchars ⊢
  rintro ⟨⟩
  exact hchars c List.mem_cons_self hc

/-- No nested list begins with a closing parenthesis. -/
theorem write_ne_close (n : Nest) (r t : List Char) : n.write.toList ++ r ≠ ')' :: t := by
  cases n with
  | word text h => exact word_ne_cons h rfl r t
  | group parts =>
    rw [toList_write_group]
    rintro ⟨⟩

/-- The nested list can be told from all others by its text. -/
abbrev IsShown : Nest → Prop :=
  Shows (divides ·) (fun _ => True) fun n => n.write.toList

/-- Nested lists that can be read off can be read off together. -/
theorem upTo_unique {sep : Char} (hsep : divides sep) (hclose : sep ≠ ')')
    (hparts : ∀ n ∈ parts, n.IsShown) {r r' : List Char}
    (h : upTo sep parts ++ r = upTo sep parts' ++ r') : parts = parts' ∧ r = r' := by
  have hsep : ∀ t, Stops (divides ·) ([sep] ++ t) := stops_cons hsep
  have hfin : ∀ t, Stops (divides ·) ([')'] ++ t) := stops_cons rfl
  cases parts with
  | nil =>
    cases parts' with
    | nil => exact ⟨rfl, List.append_cancel_left h⟩
    | cons n' rest' =>
      rw [upTo, upTo, List.append_assoc] at h
      exact absurd h.symm (n'.write_ne_close _ _)
  | cons n rest =>
    cases parts' with
    | nil =>
      rw [upTo, upTo, List.append_assoc] at h
      exact absurd h (n.write_ne_close _ _)
    | cons n' rest' =>
      obtain ⟨hshows, hparts⟩ := List.forall_mem_cons.mp hparts
      simp only [upTo, List.append_assoc _ _ r, List.append_assoc _ _ r'] at h
      obtain ⟨rfl, htail⟩ := hshows n' _ _ trivial trivial (Shows.stops_list hsep hfin rest r)
        (Shows.stops_list hsep hfin rest' r') h
      obtain ⟨rfl, rfl⟩ := Shows.list hsep hfin (by simpa using hclose) hparts (fun _ _ => trivial)
        (fun _ _ => trivial) htail
      exact ⟨rfl, rfl⟩

mutual

/-- **A nested list can be read off its text.** -/
theorem shows_write : ∀ n : Nest, n.IsShown
  | .word text h => by
    intro n' r r' _ _ hr hr' heq
    cases n' with
    | word text' h' =>
      obtain ⟨htext, rfl⟩ := eq_of_append_eq (isWord_iff.mp h).2 (isWord_iff.mp h').2 hr hr' heq
      cases String.toList_injective htext
      exact ⟨rfl, rfl⟩
    | group parts' =>
      dsimp only at heq
      rw [toList_write_group] at heq
      exact absurd heq (word_ne_cons h rfl _ _)
  | .group parts => by
    intro n' r r' _ _ hr hr' heq
    dsimp only at heq
    rw [toList_write_group] at heq
    cases n' with
    | word text' h' => exact absurd heq.symm (word_ne_cons h' rfl _ _)
    | group parts' =>
      rw [toList_write_group] at heq
      obtain ⟨rfl, hrest⟩ :=
        upTo_unique rfl (by decide) (shows_writeAll parts) (List.cons.inj heq).2
      exact ⟨rfl, hrest⟩

theorem shows_writeAll : ∀ parts : List Nest, ∀ n ∈ parts, n.IsShown
  | [] => fun _ hn => nomatch hn
  | n :: rest => List.forall_mem_cons.mpr ⟨shows_write n, shows_writeAll rest⟩

end

/-- Nested lists can be read off their lines. -/
theorem eq_of_lines_eq
    (h : "\n".intercalate (writeAll parts) = "\n".intercalate (writeAll parts')) :
    parts = parts' := by
  have hupTo : upTo '\n' parts ++ [] = upTo '\n' parts' ++ [] := by
    rw [← toList_intercalate_close, ← toList_intercalate_close]
    exact congrArg (fun t : String => t.toList ++ [')'] ++ []) h
  exact (upTo_unique rfl (by decide) (shows_writeAll parts) hupTo).1

end Nest

end Lox
