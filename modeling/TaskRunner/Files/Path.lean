import TaskRunner.Text.Blank

/-!
# Paths

A path is a text whose pieces stand between slashes. It is kept as it was written, but
it is compared by its components: an empty piece and the piece `.` count for nothing,
except for a `.` at the very start of the path.

`parent` cuts the last component off, together with what counts for nothing before
it; what is left is shorter (`length_parent_lt`). `join` puts one path behind another.
-/

namespace TaskRunner

/-- A path, as it is written. -/
structure Path where
  text : Text
deriving DecidableEq, Repr, Inhabited

namespace Path

/-- The path that a string writes. -/
def ofString (s : String) : Path := ⟨s.toList⟩

/-- The path as a string. -/
def display (p : Path) : String := String.ofList p.text

-- ── Components ───────────────────────────────────────────────────────────────

/-- A part of a path that counts. -/
inductive Component
  | root
  | current
  | parent
  | named (name : String)
deriving DecidableEq, Repr

/-- A piece that counts for nothing. -/
def isNegligible (piece : Text) : Bool := piece == [] || piece == ['.']

/-- A path is a slash or a leading `.`, if it has one, and the text behind it. -/
def splitStart : Text → Text × Text
  | '/' :: body => (['/'], body)
  | ['.'] => (['.'], [])
  | '.' :: '/' :: body => (['.'], '/' :: body)
  | body => ([], body)

theorem append_splitStart (s : Text) : (splitStart s).1 ++ (splitStart s).2 = s := by
  unfold splitStart
  split <;> rfl

/-- The pieces of a text that count. -/
def pieces (body : Text) : List Text := (body.splitOn '/').filter (!isNegligible ·)

/-- The component that a piece is. -/
def Component.ofPiece (piece : Text) : Component :=
  if piece = ['.', '.'] then .parent else .named (String.ofList piece)

/-- The components of a path. -/
def components (p : Path) : List Component :=
  let start : List Component := match (splitStart p.text).1 with
    | ['/'] => [.root]
    | ['.'] => [.current]
    | _ => []
  start ++ (pieces (splitStart p.text).2).map Component.ofPiece

/-- A rank for each kind of component: the root, the current directory, a parent, a name. -/
def Component.rank : Component → Nat
  | .root => 0
  | .current => 1
  | .parent => 2
  | .named _ => 3

/-- The order of components: by kind, and names as strings. -/
def Component.le (a b : Component) : Bool :=
  match a, b with
  | .named s, .named t => decide (s ≤ t)
  | a, b => a.rank ≤ b.rank

/-- The order of lists of components: the first that differs decides, and a beginning comes first. -/
def leComponents : List Component → List Component → Bool
  | [], _ => true
  | _ :: _, [] => false
  | a :: as, b :: bs => if a = b then leComponents as bs else a.le b

/-- The order of paths. -/
def le (p q : Path) : Bool := leComponents p.components q.components

/-- Two ways to write one list of components. -/
def same (p q : Path) : Bool := p.components == q.components

/-- The path starts at the root. -/
def isAbsolute (p : Path) : Bool := p.text.head? == some '/'

-- ── Parents ──────────────────────────────────────────────────────────────────

/-- A text without the pieces at its end that count for nothing. -/
def trimPieces (pieces : List Text) : List Text := (pieces.reverse.dropWhile isNegligible).reverse

/-- A text of pieces. -/
def ofPieces (pieces : List Text) : Text := ['/'].intercalate pieces

/-- The path without its last component; the root and the empty path have none to spare. -/
def parent (p : Path) : Option Path :=
  match (trimPieces ((splitStart p.text).2.splitOn '/')) with
  | [] => if (splitStart p.text).1 = ['.'] then some ⟨[]⟩ else none
  | first :: rest =>
    some ⟨(splitStart p.text).1 ++ ofPieces (trimPieces (first :: rest).dropLast)⟩

/-- The path with another behind it; an absolute path stays alone. -/
def join (p q : Path) : Path :=
  if q.isAbsolute then q
  else if p.text = [] ∨ p.text.getLast? = some '/' then ⟨p.text ++ q.text⟩
  else ⟨p.text ++ ['/'] ++ q.text⟩

/-- The path with a name behind it. -/
def child (p : Path) (name : String) : Path := p.join (ofString name)

-- ── A parent is shorter ──────────────────────────────────────────────────────

theorem intercalate_cons_cons (a b : Text) (rest : List Text) :
    ofPieces (a :: b :: rest) = a ++ '/' :: ofPieces (b :: rest) := by
  simp [ofPieces, List.intercalate]

theorem length_ofPieces_le_append (front back : List Text) :
    (ofPieces front).length ≤ (ofPieces (front ++ back)).length := by
  induction front with
  | nil => simp [ofPieces, List.intercalate]
  | cons a front ih =>
    cases front with
    | nil =>
      cases back with
      | nil => exact Nat.le_refl _
      | cons b back =>
        rw [List.singleton_append, intercalate_cons_cons]
        simp [ofPieces, List.intercalate]
    | cons b front =>
      rw [List.cons_append, List.cons_append, intercalate_cons_cons, intercalate_cons_cons]
      rw [List.cons_append] at ih
      simp only [List.length_append, List.length_cons] at ih ⊢
      omega

theorem trimPieces_prefix (pieces : List Text) : trimPieces pieces <+: pieces := by
  rw [trimPieces]
  have := List.dropWhile_suffix isNegligible (l := pieces.reverse)
  rw [← List.reverse_prefix] at this
  simpa using this

theorem length_ofPieces_trimPieces_le (pieces : List Text) :
    (ofPieces (trimPieces pieces)).length ≤ (ofPieces pieces).length := by
  obtain ⟨back, hback⟩ := trimPieces_prefix pieces
  conv => rhs; rw [← hback]
  exact length_ofPieces_le_append _ _

/-- The last of trimmed pieces counts, so it is not empty. -/
theorem getLast_trimPieces_ne_nil {pieces : List Text} {front : List Text} {last : Text}
    (h : trimPieces pieces = front ++ [last]) : last ≠ [] := by
  unfold trimPieces at h
  have hrev : pieces.reverse.dropWhile isNegligible = last :: front.reverse := by
    have := congrArg List.reverse h
    simpa using this
  have := List.head?_dropWhile_not isNegligible pieces.reverse
  rw [hrev] at this
  rintro rfl
  simp [isNegligible] at this

theorem length_ofPieces_concat (front : List Text) {last : Text} (h : last ≠ []) :
    (ofPieces front).length < (ofPieces (front ++ [last])).length := by
  have hpos : 0 < last.length := List.length_pos_iff.2 h
  induction front with
  | nil => simpa [ofPieces, List.intercalate] using hpos
  | cons a front ih =>
    cases front with
    | nil =>
      rw [List.singleton_append, intercalate_cons_cons]
      simp [ofPieces, List.intercalate]
    | cons b front =>
      rw [List.cons_append, List.cons_append, intercalate_cons_cons, intercalate_cons_cons]
      rw [List.cons_append] at ih
      simp only [List.length_append, List.length_cons] at ih ⊢
      omega

/-- A parent is written with fewer characters. -/
theorem length_parent_lt {p q : Path} (h : p.parent = some q) : q.text.length < p.text.length := by
  have hall := congrArg List.length (append_splitStart p.text)
  rw [List.length_append] at hall
  unfold parent at h
  split at h
  · split at h
    · rename_i hstart
      simp only [Option.some.injEq] at h
      subst h
      rw [hstart] at hall
      simp only [List.length_cons, List.length_nil] at hall ⊢
      omega
    · exact absurd h (by simp)
  · rename_i first rest htrim
    simp only [Option.some.injEq] at h
    subst h
    have hne : first :: rest ≠ [] := by simp
    have hsplit := (List.dropLast_concat_getLast hne).symm
    have hlast := getLast_trimPieces_ne_nil (htrim.trans hsplit)
    have h1 := length_ofPieces_trimPieces_le (first :: rest).dropLast
    have h2 := length_ofPieces_concat (first :: rest).dropLast hlast
    rw [← hsplit] at h2
    have h3 := length_ofPieces_trimPieces_le ((splitStart p.text).2.splitOn '/')
    rw [htrim] at h3
    have h4 : ofPieces ((splitStart p.text).2.splitOn '/') = (splitStart p.text).2 := by
      simp [ofPieces, List.intercalate_splitOn]
    rw [h4] at h3
    simp only [List.length_append]
    omega

end Path

end TaskRunner
