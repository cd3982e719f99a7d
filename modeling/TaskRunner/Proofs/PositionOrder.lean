import Mathlib.Data.List.DropRight
import Mathlib.Data.Prod.Lex
import TaskRunner.Proofs.CursorPositions

/-! # The order of positions

    A position is found character by character: a line feed leads to the start of the next
    line, any other character to the next column.  Either is later than where the character
    stands, if lines are compared first and columns after them (`rank_lt_rank_step`), and so
    is all that a text leads to (`rank_lt_rank_foldl`).

    Of two places in a text one has the other's text before it and more, so **positions rise
    with offsets**, and no two offsets share one (`positions_rise`).  Which position it is can
    be read off the text before the offset, from its last line feed on (`ofPrefix_eq`). -/

namespace TaskRunner

namespace Position

/-- A position by its line, and among those of one line by its column. -/
def rank (p : Position) : ℕ ×ₗ ℕ := toLex (p.line, p.column)

theorem rank_lt_rank_iff {p q : Position} :
    p.rank < q.rank ↔ p.line < q.line ∨ p.line = q.line ∧ p.column < q.column :=
  Prod.Lex.toLex_lt_toLex

/-! ## Character by character -/

/-- A character leads to a later position. -/
theorem rank_lt_rank_step (p : Position) (c : Char) : p.rank < (p.step c).rank := by
  rw [step, rank_lt_rank_iff]
  split
  · exact .inl (Nat.lt_succ_self p.line)
  · exact .inr ⟨rfl, Nat.lt_succ_self p.column⟩

/-- A text that is not empty leads to a later position. -/
theorem rank_lt_rank_foldl (p : Position) {text : Text} (h : text ≠ []) :
    p.rank < (text.foldl step p).rank := by
  induction text generalizing p with
  | nil => exact absurd rfl h
  | cons c rest ih =>
      rw [List.foldl_cons]
      cases rest with
      | nil => exact rank_lt_rank_step p c
      | cons d rest => exact (rank_lt_rank_step p c).trans (ih _ (List.cons_ne_nil d rest))

theorem ofPrefix_append (before text : Text) :
    ofPrefix (before ++ text) = text.foldl step (ofPrefix before) :=
  List.foldl_append

/-- The line counts the line feeds before a place, the column the characters since the last of
them. -/
theorem ofPrefix_eq (before : Text) :
    ofPrefix before = ⟨before.count '\n' + 1, (before.rtakeWhile (· ≠ '\n')).length + 1⟩ := by
  induction before using List.reverseRecOn with
  | nil => rfl
  | append_singleton before c ih =>
      rw [ofPrefix_append_singleton, ih, step, List.count_append, List.rtakeWhile_concat]
      by_cases hc : c = '\n'
      · simp [hc]
      · simp [hc]

end Position

namespace Text

open Cursor

/-! ## Offset by offset -/

/-- Of two beginnings of a text, the one with more octets goes on where the other ends. -/
theorem exists_append_of_octets_lt {front front' rest rest' : Text}
    (h : front ++ rest = front' ++ rest') (hlt : octets front < octets front') :
    ∃ more, more ≠ [] ∧ front' = front ++ more := by
  obtain ⟨more, hfront, -⟩ | ⟨more, hfront, -⟩ := List.append_eq_append_iff.mp h
  · refine ⟨more, ?_, hfront⟩
    rintro rfl
    rw [hfront, List.append_nil] at hlt
    exact absurd hlt (Nat.lt_irrefl _)
  · rw [hfront, octets_append] at hlt
    omega

theorem lineColumn_octets (front rest : Text) :
    lineColumn (front ++ rest) (octets front) = Position.ofPrefix front := by
  rw [lineColumn, takeOctets_octets]

/-- A larger offset has a later position. -/
theorem rank_lineColumn_lt {s : Text} {m n : Nat} (hm : IsBoundary s m) (hn : IsBoundary s n)
    (h : m < n) : (lineColumn s m).rank < (lineColumn s n).rank := by
  obtain ⟨front, rest, rfl, rfl⟩ := hm
  obtain ⟨front', rest', hsource, rfl⟩ := hn
  obtain ⟨more, hmore, rfl⟩ := exists_append_of_octets_lt hsource h
  rw [lineColumn_octets, hsource, lineColumn_octets, Position.ofPrefix_append]
  exact Position.rank_lt_rank_foldl _ hmore

/-- **POSITIONS RISE WITH OFFSETS**: the line of a place is one more than the line feeds before
it, and its column one more than the characters since the last of them.  Of two offsets between
characters the smaller one has the earlier position, by line first and then by column, and so a
position is the one of a single offset. -/
theorem positions_rise (s : Text) :
    (∀ front rest, s = front ++ rest →
      lineColumn s (octets front)
        = ⟨front.count '\n' + 1, (front.rtakeWhile (· ≠ '\n')).length + 1⟩) ∧
    StrictMonoOn (fun n => (lineColumn s n).rank) {n | IsBoundary s n} ∧
    Set.InjOn (lineColumn s) {n | IsBoundary s n} := by
  have hmono : StrictMonoOn (fun n => (lineColumn s n).rank) {n | IsBoundary s n} :=
    fun _ hm _ hn hlt => rank_lineColumn_lt hm hn hlt
  refine ⟨?_, hmono, ?_⟩
  · rintro front rest rfl
    rw [lineColumn_octets, Position.ofPrefix_eq]
  · intro m hm n hn heq
    exact hmono.injOn hm hn (congrArg Position.rank heq)

/-- Two lines of one character, each of two octets, and an empty line between them. -/
def spaced : Text := "é\n\nß".toList

/-- The empty line has a position of its own, and the end of the text comes after all others. -/
theorem spaced_positions_rise :
    IsBoundary spaced 3 ∧ lineColumn spaced 3 = ⟨2, 1⟩ ∧
      IsBoundary spaced 6 ∧ lineColumn spaced 6 = ⟨3, 2⟩ ∧
      (lineColumn spaced 3).rank < (lineColumn spaced 6).rank := by
  obtain ⟨hplace, hmono, -⟩ := positions_rise spaced
  have hempty : IsBoundary spaced 3 := ⟨['é', '\n'], ['\n', 'ß'], rfl, rfl⟩
  have hend : IsBoundary spaced 6 := ⟨spaced, [], rfl, rfl⟩
  exact ⟨hempty, hplace ['é', '\n'] ['\n', 'ß'] rfl, hend, hplace spaced [] rfl,
    hmono hempty hend (by decide)⟩

end Text

end TaskRunner
