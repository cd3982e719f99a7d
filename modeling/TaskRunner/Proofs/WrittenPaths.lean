import TaskRunner.Proofs.PathWalks

/-! # Paths that are written anew

    A path is written down as pieces between slashes (`ofPieces_cons`), and a search through
    directories writes it again, piece by piece (**`Path.tidied`**): empty pieces vanish, and
    so do points at the start.  One kind of path does not survive that: an empty piece behind
    points at the start leads it to the empty path, and so nowhere (**`Path.StartsLost`**).

    What counts of a path, its `Path.pieces`, tells where it leads.  Writing a path anew keeps
    them (`pieces_tidied`), and the parent has all of them but the last one
    (**`pieces_parent`**). -/

namespace TaskRunner

/-- A name is not empty, since an empty piece leads nowhere. -/
theorem IsName.ne_nil {name : Text} (h : IsName name) : name ≠ [] := by
  rintro rfl
  exact absurd h.counts (by decide)

namespace Path

variable {path : Path} {s front name : Text} {pieces : List Text}

/-! ## Texts of pieces -/

/-- A text of pieces: the first one, and each other one behind a slash. -/
theorem ofPieces_cons (piece : Text) (rest : List Text) :
    ofPieces (piece :: rest) = piece ++ rest.flatMap ('/' :: ·) := by
  induction rest generalizing piece with
  | nil => simp [ofPieces, List.intercalate]
  | cons next rest ih => rw [intercalate_cons_cons, ih, List.flatMap_cons, List.cons_append]

/-- Cutting a text at its slashes and joining the pieces gives the text again. -/
theorem ofPieces_splitOn (s : Text) : ofPieces (s.splitOn '/') = s := List.intercalate_splitOn '/'

/-- A leading slash stands in front of the first piece like any other. -/
theorem cons_ofPieces {pieces : List Text} (h : pieces ≠ []) :
    '/' :: ofPieces pieces = pieces.flatMap ('/' :: ·) := by
  obtain ⟨piece, rest, rfl⟩ := List.exists_cons_of_ne_nil h
  rw [ofPieces_cons, List.flatMap_cons, List.cons_append]

/-- In front of a leading slash stands an empty piece. -/
theorem splitOn_slash (s : Text) : ('/' :: s).splitOn '/' = [] :: s.splitOn '/' :=
  List.splitOn_append_cons_self [] s

/-- In front of the slash of a leading point stands the point. -/
theorem splitOn_dot_slash (s : Text) : ('.' :: '/' :: s).splitOn '/' = ['.'] :: s.splitOn '/' :=
  List.splitOn_append_cons_self ['.'] s

/-- A path is its text. -/
theorem eq_of_text {p q : Path} (h : p.text = q.text) : p = q := by
  obtain ⟨text⟩ := p
  obtain ⟨text'⟩ := q
  rw [show text = text' from h]

/-- A path is absolute if it begins with a slash, and for no other reason. -/
theorem isAbsolute_iff : path.isAbsolute = true ↔ ∃ body, path.text = '/' :: body := by
  rw [isAbsolute, beq_iff_eq, List.head?_eq_some_iff]

/-- So a path whose first piece is not empty is not. -/
theorem isAbsolute_ofPieces {first : Text} (hne : first ≠ []) (hslash : '/' ∉ first)
    (rest : List Text) : (Path.mk (ofPieces (first :: rest))).isAbsolute = false := by
  obtain ⟨c, first, rfl⟩ := List.exists_cons_of_ne_nil hne
  rw [isAbsolute, ofPieces_cons]
  refine beq_eq_false_iff_ne.mpr fun h => hslash ?_
  rw [← Option.some.inj h]
  exact List.mem_cons_self

/-- One piece alone means the working directory only if it counts for nothing. -/
theorem same_dot_of_piece {piece : Text} (hslash : '/' ∉ piece) (hne : piece ≠ [])
    (hdot : piece ≠ ['.']) : (Path.mk piece).same (.ofString ".") = false := by
  refine Bool.eq_false_iff.mpr fun h => ?_
  obtain ⟨-, hnegligible⟩ := same_dot_iff.mp h
  have hone : (Path.mk piece).text.splitOn '/' = [piece] := List.splitOn_eq_singleton hslash
  rw [hone] at hnegligible
  have hcounts := hnegligible piece List.mem_cons_self
  simp [isNegligible, hne, hdot] at hcounts

/-! ## Pieces behind a path -/

/-- The path with pieces behind it, one after the other. -/
def joinAll (path : Path) (pieces : List Text) : Path :=
  pieces.foldl (fun path piece => path.join ⟨piece⟩) path

/-- The last name is joined last. -/
theorem joinAll_concat (path : Path) (pieces : List Text) (name : Text) :
    path.joinAll (pieces ++ [name]) = (path.joinAll pieces).join ⟨name⟩ := by
  rw [joinAll, List.foldl_append]
  rfl

/-- A path with a name behind it is not empty. -/
theorem text_join_ne_nil {path : Path} {name : Text} (hpath : path.text ≠ [])
    (hname : '/' ∉ name) : (path.join ⟨name⟩).text ≠ [] := by
  obtain ⟨front, -, hjoin⟩ | hjoin := text_join hpath hname
  · rw [hjoin]
    exact List.append_ne_nil_of_right_ne_nil _ (List.cons_ne_nil _ _)
  · rw [hjoin]
    exact List.append_ne_nil_of_left_ne_nil hpath _

/-- The text of the path is `front`, perhaps with a slash behind it. -/
def Ends (path : Path) (front : Text) : Prop :=
  path.text = front ++ ['/'] ∨
    path.text = front ∧ front ≠ [] ∧ front.getLast? ≠ some '/'

/-- Exactly one slash stands between a path and the name behind it. -/
theorem Ends.text_join (h : path.Ends front) (hname : '/' ∉ name) :
    (path.join ⟨name⟩).text = front ++ '/' :: name := by
  rw [join, isAbsolute_of_slash hname, if_neg Bool.false_ne_true]
  obtain htext | ⟨htext, hne, hlast⟩ := h
  · rw [if_pos (.inr (by rw [htext, List.getLast?_concat])), htext, List.append_assoc]
    rfl
  · rw [if_neg (by rw [htext]; exact fun h => h.elim hne hlast), htext, List.append_assoc]
    rfl

/-- **PIECES BEHIND A PATH** are written between slashes, but for those that are empty. -/
theorem text_joinAll_join (h : path.Ends front) (hpieces : ∀ piece ∈ pieces, '/' ∉ piece)
    (hname : '/' ∉ name) : ((path.joinAll pieces).join ⟨name⟩).text
      = front ++ (pieces.filter (!·.isEmpty) ++ [name]).flatMap ('/' :: ·) := by
  induction pieces generalizing path front with
  | nil =>
      rw [show path.joinAll [] = path from rfl, h.text_join hname]
      simp
  | cons piece pieces ih =>
      obtain ⟨hpiece, hrest⟩ := List.forall_mem_cons.mp hpieces
      have hjoin := h.text_join hpiece
      show (((path.join ⟨piece⟩).joinAll pieces).join ⟨name⟩).text = _
      by_cases hempty : piece = []
      · subst hempty
        rw [ih (.inl hjoin) hrest]
        rfl
      · have hlast : (front ++ '/' :: piece).getLast? ≠ some '/' := by
          rw [List.getLast?_append_of_ne_nil _ (List.cons_ne_nil _ _),
            List.getLast?_cons_of_ne_nil hempty]
          exact fun h => hpiece (List.mem_of_getLast? h)
        rw [ih (.inr ⟨hjoin, List.append_ne_nil_of_right_ne_nil _ (List.cons_ne_nil _ _), hlast⟩)
          hrest, List.filter_cons_of_pos (by simpa using hempty)]
        simp

/-- The pieces of a path with another behind it. -/
theorem splitOn_join (path : Path) (hs : (Path.mk s).isAbsolute = false) : ∃ front,
    (path.text.splitOn '/' = front ∨ path.text.splitOn '/' = front ++ [[]]) ∧
      (path.join ⟨s⟩).text.splitOn '/' = front ++ s.splitOn '/' := by
  rw [join, hs, if_neg Bool.false_ne_true]
  by_cases hempty : path.text = []
  · rw [if_pos (.inl hempty), hempty]
    exact ⟨[], .inr rfl, rfl⟩
  by_cases hlast : path.text.getLast? = some '/'
  · obtain ⟨front, hfront⟩ := List.getLast?_eq_some_iff.mp hlast
    refine ⟨front.splitOn '/', .inr ?_, ?_⟩
    · rw [hfront, List.splitOn_append_cons_self, List.splitOn_nil]
    · rw [if_pos (.inr hlast), hfront, List.append_assoc]
      exact List.splitOn_append_cons_self front s
  · refine ⟨path.text.splitOn '/', .inl rfl, ?_⟩
    rw [if_neg fun h => h.elim hempty hlast, List.append_assoc]
    exact List.splitOn_append_cons_self path.text s

/-- What is joined behind a path does not make it absolute. -/
theorem isAbsolute_join_relative (path : Path) (hs : (Path.mk s).isAbsolute = false) :
    (path.join ⟨s⟩).isAbsolute = path.isAbsolute := by
  obtain ⟨text⟩ := path
  rw [join, hs, if_neg Bool.false_ne_true]
  cases text with
  | nil => exact hs
  | cons c text => split <;> rfl

/-! ## Writing a path anew -/

/-- The path as the search writes it: without empty pieces, and without points at the start. -/
def tidied (path : Path) : Path :=
  let pieces := (path.text.splitOn '/').filter (!·.isEmpty)
  if path.isAbsolute then ⟨'/' :: ofPieces pieces⟩
  else ⟨ofPieces (pieces.dropWhile (· == ['.']))⟩

/-- A name behind a path is one more piece of it. -/
theorem filter_splitOn_join (hpath : path.text ≠ []) (hname : '/' ∉ name) (hne : name ≠ []) :
    ((path.join ⟨name⟩).text.splitOn '/').filter (!·.isEmpty)
      = (path.text.splitOn '/').filter (!·.isEmpty) ++ [name] := by
  have hcounts : [name].filter (!·.isEmpty) = [name] := by simpa using hne
  obtain ⟨front, hpieces, hjoin⟩ | hjoin := pieces_join hpath hname
  · rw [hjoin, hpieces, List.filter_append, List.filter_append, hcounts]
    simp
  · rw [hjoin, List.filter_append, hcounts]

/-- From the root the search writes a path piece by piece. -/
theorem tidied_of_absolute {body : Text} (hname : '/' ∉ name) (hne : name ≠ []) :
    ((Path.mk ('/' :: body)).join ⟨name⟩).tidied
      = ((ofString "/").joinAll (body.splitOn '/')).join ⟨name⟩ := by
  have habsolute : ((Path.mk ('/' :: body)).join ⟨name⟩).isAbsolute = true :=
    (isAbsolute_join (List.cons_ne_nil _ _) hname).trans rfl
  have hroot : (ofString "/").Ends [] := .inl rfl
  apply eq_of_text
  rw [text_joinAll_join hroot (fun _ => slash_of_mem_splitOn) hname, tidied, habsolute,
    if_pos rfl, filter_splitOn_join (List.cons_ne_nil _ _) hname hne, splitOn_slash,
    cons_ofPieces (List.append_ne_nil_of_right_ne_nil _ (List.cons_ne_nil _ _))]
  rfl

/-- From a working directory it does so behind the points at the start. -/
theorem tidied_of_relative {dots : List Text} {first : Text}
    (hpath : path.text.splitOn '/' = dots ++ first :: pieces) (hdots : ∀ dot ∈ dots, dot = ['.'])
    (hempty : first ≠ []) (hdot : first ≠ ['.']) (hrelative : path.isAbsolute = false)
    (hname : '/' ∉ name) (hne : name ≠ []) :
    (path.join ⟨name⟩).tidied = ((Path.mk first).joinAll pieces).join ⟨name⟩ := by
  have hslash : ∀ piece ∈ first :: pieces, '/' ∉ piece := fun piece hpiece =>
    slash_of_mem_splitOn (hpath ▸ List.mem_append_right dots hpiece)
  obtain ⟨hfirst, hpieces⟩ := List.forall_mem_cons.mp hslash
  have htext : path.text ≠ [] := by
    intro hnil
    rw [hnil, List.splitOn_nil] at hpath
    cases dots with
    | nil => exact hempty (List.cons.inj hpath).1.symm
    | cons dot dots =>
        exact absurd (List.cons.inj hpath).2.symm
          (List.append_ne_nil_of_right_ne_nil _ (List.cons_ne_nil _ _))
  have hlast : first.getLast? ≠ some '/' := fun h => hfirst (List.mem_of_getLast? h)
  have hjoined : ((path.join ⟨name⟩).text.splitOn '/').filter (!·.isEmpty)
      = dots ++ first :: (pieces.filter (!·.isEmpty) ++ [name]) := by
    have hpoints : dots.filter (!·.isEmpty) = dots :=
      List.filter_eq_self.mpr fun dot hmem => by rw [hdots dot hmem]; rfl
    rw [filter_splitOn_join htext hname hne, hpath, List.filter_append, hpoints,
      List.filter_cons_of_pos (by simpa using hempty), List.append_assoc, List.cons_append]
  have hstart : (dots ++ first :: (pieces.filter (!·.isEmpty) ++ [name])).dropWhile (· == ['.'])
      = first :: (pieces.filter (!·.isEmpty) ++ [name]) := by
    rw [List.dropWhile_append_of_pos fun dot hmem => by rw [hdots dot hmem]; rfl,
      List.dropWhile_cons_of_neg (by simpa using hdot)]
  apply eq_of_text
  rw [text_joinAll_join (.inr ⟨rfl, hempty, hlast⟩) hpieces hname, tidied,
    isAbsolute_join htext hname, hrelative, if_neg Bool.false_ne_true, hjoined, hstart,
    ofPieces_cons]

/-- A path that is tidied starts where it started. -/
theorem isAbsolute_tidied (path : Path) : path.tidied.isAbsolute = path.isAbsolute := by
  rw [tidied]
  cases path.isAbsolute with
  | true => rfl
  | false =>
      rw [if_neg Bool.false_ne_true]
      cases hpieces : ((path.text.splitOn '/').filter (!·.isEmpty)).dropWhile (· == ['.']) with
      | nil => rfl
      | cons first rest =>
          have hmem : first ∈ (path.text.splitOn '/').filter (!·.isEmpty) :=
            List.dropWhile_subset (· == ['.']) (hpieces ▸ List.mem_cons_self)
          obtain ⟨hmem, hcounts⟩ := List.mem_filter.mp hmem
          exact isAbsolute_ofPieces (by simpa using hcounts) (slash_of_mem_splitOn hmem) rest

/-- A path that is written anew ends with the name that it ended with. -/
theorem exists_splitOn_tidied (hpath : path.text ≠ []) {name : Text} (hname : IsName name) :
    ∃ front, (path.join ⟨name⟩).tidied.text.splitOn '/' = front ++ [name] := by
  have hfilter := filter_splitOn_join hpath hname.whole hname.ne_nil
  have hslash : ∀ piece ∈ (path.text.splitOn '/').filter (!·.isEmpty) ++ [name], '/' ∉ piece :=
    List.forall_mem_append.mpr
      ⟨fun piece hpiece => slash_of_mem_splitOn (List.mem_of_mem_filter hpiece),
        List.forall_mem_singleton.mpr hname.whole⟩
  have hends : ∀ front : List Text, (∀ piece ∈ front ++ [name], '/' ∉ piece) →
      (ofPieces (front ++ [name])).splitOn '/' = front ++ [name] := fun front hfront =>
    List.splitOn_intercalate '/' hfront
      (List.append_ne_nil_of_right_ne_nil _ (List.cons_ne_nil _ _))
  rw [tidied, hfilter]
  split
  · refine ⟨[] :: (path.text.splitOn '/').filter (!·.isEmpty), ?_⟩
    rw [splitOn_slash, hends _ hslash]
    rfl
  · have hdot : name ≠ ['.'] := by
      rintro rfl
      exact absurd hname.counts (by decide)
    obtain ⟨front, hfront⟩ : ∃ front,
        ((path.text.splitOn '/').filter (!·.isEmpty) ++ [name]).dropWhile (· == ['.'])
          = front ++ [name] := by
      rw [List.dropWhile_append]
      split
      · exact ⟨[], List.dropWhile_cons_of_neg (by simpa using hdot)⟩
      · exact ⟨_, rfl⟩
    refine ⟨front, ?_⟩
    rw [hfront]
    refine hends front fun piece hpiece => hslash piece ?_
    rw [← hfront] at hpiece
    exact List.dropWhile_subset _ hpiece

/-! ## Starts that are lost -/

/-- An empty piece stands behind points at the start of the path. -/
def StartsLost (path : Path) : Prop :=
  (path.text.splitOn '/').head? = some ['.'] ∧
    ((path.text.splitOn '/').dropWhile (· == ['.'])).head? = some []

instance (path : Path) : Decidable path.StartsLost := inferInstanceAs (Decidable (_ ∧ _))

/-- In front of the first piece that leads somewhere there are only points. -/
theorem exists_dots (hcounts : (path.text.splitOn '/').dropWhile (· == ['.']) ≠ []) :
    ∃ dots first pieces, path.text.splitOn '/' = dots ++ first :: pieces ∧
      (∀ dot ∈ dots, dot = ['.']) ∧ first ≠ ['.'] := by
  obtain ⟨first, pieces, hrest⟩ := List.exists_cons_of_ne_nil hcounts
  refine ⟨(path.text.splitOn '/').takeWhile (· == ['.']), first, pieces, ?_, fun dot hdot => ?_, ?_⟩
  · rw [← hrest, List.takeWhile_append_dropWhile]
  · have hpoint : (dot == ['.']) = true := List.mem_takeWhile_imp (p := (· == ['.'])) hdot
    exact beq_iff_eq.mp hpoint
  · have hhead := List.head?_dropWhile_not (· == ['.']) (path.text.splitOn '/')
    rw [hrest] at hhead
    exact beq_eq_false_iff_ne.mp hhead

/-- The pieces of a path tell whether its start is lost. -/
theorem startsLost_iff {dots pieces : List Text} {first : Text}
    (hpath : path.text.splitOn '/' = dots ++ first :: pieces) (hdots : ∀ dot ∈ dots, dot = ['.'])
    (hfirst : first ≠ ['.']) : path.StartsLost ↔ dots ≠ [] ∧ first = [] := by
  have hdrop : (path.text.splitOn '/').dropWhile (· == ['.']) = first :: pieces := by
    rw [hpath, List.dropWhile_append_of_pos fun dot hmem => by rw [hdots dot hmem]; rfl,
      List.dropWhile_cons_of_neg (by simpa using hfirst)]
  have hhead : (path.text.splitOn '/').head? = some ['.'] ↔ dots ≠ [] := by
    rw [hpath]
    cases dots with
    | nil => simpa using hfirst
    | cons dot dots => simpa using hdots dot List.mem_cons_self
  rw [StartsLost, hhead, hdrop, List.head?_cons, Option.some_inj]

/-- Only a slash or no text at all has an empty first piece. -/
theorem dots_ne_nil {dots pieces : List Text} (hne : path.text ≠ [])
    (hrelative : path.isAbsolute = false) (hpath : path.text.splitOn '/' = dots ++ [] :: pieces) :
    dots ≠ [] := by
  rintro rfl
  have htext := ofPieces_splitOn path.text
  rw [hpath, List.nil_append, ofPieces_cons] at htext
  cases pieces with
  | nil => exact hne htext.symm
  | cons piece pieces =>
      exact Bool.eq_false_iff.mp hrelative (isAbsolute_iff.mpr ⟨_, htext.symm⟩)

/-- A path from the root loses nothing at its start. -/
theorem StartsLost.isAbsolute (h : path.StartsLost) : path.isAbsolute = false := by
  refine Bool.eq_false_iff.mpr fun habsolute => ?_
  obtain ⟨body, hbody⟩ := isAbsolute_iff.mp habsolute
  have hhead := h.1
  rw [hbody, splitOn_slash] at hhead
  cases hhead

end Path

/-! ## Pieces that count -/

namespace Path

variable {path base : Path} {s : Text}

/-- What is filtered away later need not be dropped before. -/
theorem filter_dropWhile {α : Type} {p q : α → Bool} (h : ∀ a, p a = true → q a = false)
    (l : List α) : (l.dropWhile p).filter q = l.filter q := by
  induction l with
  | nil => rfl
  | cons a l ih =>
      by_cases ha : p a = true
      · rw [List.dropWhile_cons_of_pos ha, ih, List.filter_cons_of_neg (by simp [h a ha])]
      · rw [List.dropWhile_cons_of_neg ha]

/-- The pieces that count have no slash and lead somewhere. -/
theorem of_mem_pieces {piece : Text} (h : piece ∈ pieces s) :
    '/' ∉ piece ∧ isNegligible piece = false := by
  obtain ⟨hmem, hcounts⟩ := List.mem_filter.mp h
  exact ⟨slash_of_mem_splitOn hmem, by simpa using hcounts⟩

/-- Of pieces that are joined, those that lead somewhere are the pieces that count. -/
theorem pieces_ofPieces {l : List Text} (h : ∀ piece ∈ l, '/' ∉ piece) :
    pieces (ofPieces l) = l.filter (!isNegligible ·) := by
  by_cases hne : l = []
  · subst hne
    rfl
  · rw [pieces, ofPieces, List.splitOn_intercalate '/' h hne]

/-- A leading slash is no piece that counts. -/
theorem pieces_cons_slash (s : Text) : pieces ('/' :: s) = pieces s := by
  rw [pieces, splitOn_slash]
  rfl

/-- Nor is a leading point. -/
theorem pieces_dot_slash (s : Text) : pieces ('.' :: '/' :: s) = pieces s := by
  rw [pieces, splitOn_dot_slash]
  rfl

/-- What a text starts with, and what is left of it. -/
theorem splitStart_cases (s : Text) :
    (∃ body, s = '/' :: body ∧ splitStart s = (['/'], body)) ∨
    (s = ['.'] ∧ splitStart s = (['.'], [])) ∨
    (∃ body, s = '.' :: '/' :: body ∧ splitStart s = (['.'], '/' :: body)) ∨
    ((∀ body, s ≠ '/' :: body) ∧ splitStart s = ([], s)) := by
  unfold splitStart
  split
  · exact .inl ⟨_, rfl, rfl⟩
  · exact .inr (.inl ⟨rfl, rfl⟩)
  · exact .inr (.inr (.inl ⟨_, rfl, rfl⟩))
  · rename_i hslash _ _
    exact .inr (.inr (.inr ⟨hslash, rfl⟩))

/-- So a path has the same pieces without its start. -/
theorem pieces_splitStart (s : Text) : pieces (splitStart s).2 = pieces s := by
  obtain ⟨body, rfl, hstart⟩ | ⟨rfl, hstart⟩ | ⟨body, rfl, hstart⟩ | ⟨-, hstart⟩ :=
    splitStart_cases s
  · exact (pieces_cons_slash body).symm
  · decide
  · rw [hstart, pieces_cons_slash, pieces_dot_slash]
  · rw [hstart]

/-- The pieces of what is joined come behind those of the path. -/
theorem pieces_join_relative (hs : (Path.mk s).isAbsolute = false) :
    pieces (path.join ⟨s⟩).text = pieces path.text ++ pieces s := by
  obtain ⟨front, hfront, hjoin⟩ := splitOn_join path hs
  rw [pieces, hjoin, List.filter_append]
  congr 1
  obtain hfront | hfront := hfront
  · rw [pieces, hfront]
  · rw [pieces, hfront, List.filter_append]
    exact (List.append_nil _).symm

/-- Writing a path anew keeps the pieces that count. -/
theorem pieces_tidied (path : Path) : pieces path.tidied.text = pieces path.text := by
  have hslash : ∀ piece ∈ (path.text.splitOn '/').filter (!·.isEmpty), '/' ∉ piece :=
    fun piece hpiece => slash_of_mem_splitOn (List.mem_of_mem_filter hpiece)
  have hnonempty : ((path.text.splitOn '/').filter (!·.isEmpty)).filter (!isNegligible ·)
      = pieces path.text := by
    rw [pieces, List.filter_filter]
    refine List.filter_congr fun piece _ => ?_
    cases piece <;> simp [isNegligible]
  rw [tidied]
  cases path.isAbsolute with
  | true =>
      rw [if_pos rfl]
      show pieces ('/' :: _) = _
      rw [pieces_cons_slash, pieces_ofPieces hslash, hnonempty]
  | false =>
      rw [if_neg Bool.false_ne_true]
      show pieces (ofPieces _) = _
      rw [pieces_ofPieces fun piece hpiece => hslash piece (List.dropWhile_subset _ hpiece),
        filter_dropWhile (fun piece hdot => by rw [beq_iff_eq.mp hdot]; rfl), hnonempty]

/-- A name is its only piece. -/
theorem pieces_name {name : Text} (hname : IsName name) : pieces name = [name] := by
  rw [pieces, List.splitOn_eq_singleton hname.whole,
    List.filter_cons_of_pos (by rw [hname.counts]; rfl)]
  rfl

/-! ## Parents -/

/-- Trimming takes away only pieces that lead nowhere. -/
theorem filter_trimPieces (l : List Text) :
    (trimPieces l).filter (!isNegligible ·) = l.filter (!isNegligible ·) := by
  rw [trimPieces, List.filter_reverse, filter_dropWhile fun piece h => by rw [h]; rfl,
    List.filter_reverse, List.reverse_reverse]

/-- And it takes away all of them at the end. -/
theorem isNegligible_getLast_trimPieces {l front : List Text} {last : Text}
    (h : trimPieces l = front ++ [last]) : isNegligible last = false := by
  have hrev : l.reverse.dropWhile isNegligible = last :: front.reverse := by
    have hreverse := congrArg List.reverse h
    rwa [trimPieces, List.reverse_reverse, List.reverse_append] at hreverse
  have hhead := List.head?_dropWhile_not isNegligible l.reverse
  rwa [hrev] at hhead

/-- What a parent path is made of. -/
theorem parent_eq_some (h : path.parent = some base) (hcounts : pieces path.text ≠ []) :
    ∃ front last, trimPieces ((splitStart path.text).2.splitOn '/') = front ++ [last] ∧
      base.text = (splitStart path.text).1 ++ ofPieces (trimPieces front) := by
  rw [parent] at h
  split at h
  · rename_i htrim
    refine absurd ?_ hcounts
    rw [← pieces_splitStart, pieces, ← filter_trimPieces, htrim]
    rfl
  · rename_i first rest htrim
    cases h
    refine ⟨(first :: rest).dropLast, (first :: rest).getLast (List.cons_ne_nil _ _), ?_, rfl⟩
    rw [htrim, List.dropLast_concat_getLast]

/-- The pieces behind the start of a path, or the first ones of them. -/
theorem pieces_append_ofPieces {l : List Text} (h : l <+: (splitStart s).2.splitOn '/') :
    pieces ((splitStart s).1 ++ ofPieces l) = l.filter (!isNegligible ·) := by
  have hslash : ∀ piece ∈ l, '/' ∉ piece := fun piece hpiece =>
    slash_of_mem_splitOn (h.subset hpiece)
  obtain ⟨body, rfl, hstart⟩ | ⟨rfl, hstart⟩ | ⟨body, rfl, hstart⟩ | ⟨-, hstart⟩ :=
    splitStart_cases s
  · rw [hstart]
    exact (pieces_cons_slash _).trans (pieces_ofPieces hslash)
  · rw [hstart] at h ⊢
    obtain rfl | ⟨l, rfl, hl⟩ := List.prefix_cons_iff.mp h
    · decide
    · rw [List.prefix_nil.mp hl]
      decide
  · rw [hstart] at h ⊢
    rw [splitOn_slash] at h
    obtain rfl | ⟨l, rfl, -⟩ := List.prefix_cons_iff.mp h
    · rfl
    · cases l with
      | nil => rfl
      | cons piece l =>
          rw [intercalate_cons_cons]
          exact (pieces_dot_slash _).trans
            (pieces_ofPieces (List.forall_mem_cons.mp hslash).2)
  · rw [hstart]
    exact pieces_ofPieces hslash

/-- So what stands before the last piece is a beginning of the pieces of the path. -/
theorem prefix_of_trimPieces {front : List Text} {last : Text}
    (h : trimPieces ((splitStart s).2.splitOn '/') = front ++ [last]) :
    trimPieces front <+: (splitStart s).2.splitOn '/' := by
  have hfront := trimPieces_prefix front
  have hall := trimPieces_prefix ((splitStart s).2.splitOn '/')
  rw [h] at hall
  exact hfront.trans ((List.prefix_append front [last]).trans hall)

/-- **THE PARENT** has the pieces that count but for the last one. -/
theorem pieces_parent (h : path.parent = some base) (hcounts : pieces path.text ≠ []) :
    ∃ last, pieces path.text = pieces base.text ++ [last] := by
  obtain ⟨front, last, htrim, hbase⟩ := parent_eq_some h hcounts
  have hlast := isNegligible_getLast_trimPieces htrim
  refine ⟨last, ?_⟩
  rw [hbase, pieces_append_ofPieces (prefix_of_trimPieces htrim), filter_trimPieces,
    ← pieces_splitStart, pieces, ← filter_trimPieces, htrim, List.filter_append,
    List.filter_cons_of_pos (by rw [hlast]; rfl)]
  rfl

/-- A path with a piece that counts has a parent. -/
theorem parent_of_pieces (hcounts : pieces path.text ≠ []) : ∃ base, path.parent = some base := by
  rw [parent]
  split
  · rename_i htrim
    refine absurd ?_ hcounts
    rw [← pieces_splitStart, pieces, ← filter_trimPieces, htrim]
    rfl
  · exact ⟨_, rfl⟩

/-- The parent starts where the path does. -/
theorem isAbsolute_parent (h : path.parent = some base) (hcounts : pieces path.text ≠ []) :
    base.isAbsolute = path.isAbsolute := by
  obtain ⟨front, last, htrim, hbase⟩ := parent_eq_some h hcounts
  have hbegins := prefix_of_trimPieces htrim
  obtain ⟨body, htext, hstart⟩ | ⟨htext, hstart⟩ | ⟨body, htext, hstart⟩ | ⟨hslash, hstart⟩ :=
    splitStart_cases path.text
  · rw [isAbsolute, isAbsolute, hbase, hstart, htext]
    rfl
  · rw [isAbsolute, isAbsolute, hbase, hstart, htext]
    rfl
  · rw [isAbsolute, isAbsolute, hbase, hstart, htext]
    rfl
  · have hrelative : path.isAbsolute = false := Bool.eq_false_iff.mpr fun habsolute => by
      obtain ⟨body, hbody⟩ := isAbsolute_iff.mp habsolute
      exact hslash body hbody
    rw [hstart] at hbase hbegins
    rw [hrelative, isAbsolute, hbase]
    cases hpieces : trimPieces front with
    | nil => rfl
    | cons first rest =>
        rw [hpieces] at hbegins
        obtain ⟨more, hmore⟩ := hbegins
        have hsplit : path.text.splitOn '/' = [] ++ first :: (rest ++ more) := hmore.symm
        have hne : first ≠ [] := by
          rintro rfl
          have htext : path.text ≠ [] := fun hnil => hcounts (by rw [hnil]; rfl)
          exact dots_ne_nil htext hrelative hsplit rfl
        have hmem : first ∈ path.text.splitOn '/' := hsplit ▸ List.mem_cons_self
        exact isAbsolute_ofPieces hne (slash_of_mem_splitOn hmem) rest

/-- A path ends with the last character of its last piece. -/
theorem getLast?_ofPieces (front : List Text) {last : Text} (h : last ≠ []) :
    (ofPieces (front ++ [last])).getLast? = last.getLast? := by
  cases front with
  | nil => rw [List.nil_append, ofPieces_cons, List.flatMap_nil, List.append_nil]
  | cons piece front =>
      rw [List.cons_append, ofPieces_cons, List.flatMap_append, ← List.append_assoc,
        List.flatMap_singleton, List.getLast?_append_of_ne_nil _ (List.cons_ne_nil _ _),
        List.getLast?_cons_of_ne_nil h]

/-- A parent that does not start with a slash does not end with one. -/
theorem getLast?_parent (h : path.parent = some base) (hcounts : pieces path.text ≠ [])
    (hrelative : base.isAbsolute = false) : base.text.getLast? ≠ some '/' := by
  obtain ⟨front, last, htrim, hbase⟩ := parent_eq_some h hcounts
  have hbegins := prefix_of_trimPieces htrim
  obtain hnil | ⟨before, final, hfinal⟩ := List.eq_nil_or_concat (trimPieces front)
  · rw [hnil, show ofPieces [] = [] from rfl, List.append_nil] at hbase
    obtain ⟨body, -, hstart⟩ | ⟨-, hstart⟩ | ⟨body, -, hstart⟩ | ⟨-, hstart⟩ :=
      splitStart_cases path.text
    · rw [isAbsolute, hbase, hstart] at hrelative
      cases hrelative
    · rw [hbase, hstart]
      decide
    · rw [hbase, hstart]
      simp
    · rw [hbase, hstart]
      simp
  · rw [List.concat_eq_append] at hfinal
    have hne : final ≠ [] := getLast_trimPieces_ne_nil hfinal
    have hmem : final ∈ trimPieces front :=
      hfinal ▸ List.mem_append_right _ List.mem_cons_self
    have hslash := slash_of_mem_splitOn (hbegins.subset hmem)
    have hlast := getLast?_ofPieces before hne
    rw [hbase, hfinal, List.getLast?_append_of_ne_nil, hlast]
    · exact fun h => hslash (List.mem_of_getLast? h)
    · intro hnil
      rw [hnil] at hlast
      exact hne (List.getLast?_eq_none_iff.mp hlast.symm)

end Path

end TaskRunner
