import TaskRunner.Proofs.DeletedFiles
import TaskRunner.Proofs.WrittenPaths
import TaskRunner.TaskFile.Loading

/-! # Patterns that list a directory

    A pattern that is the text of a directory's path, and behind it a star and an ending,
    lists that directory, if the text has none of the characters that mean something in a
    pattern: its pieces stand for themselves (`parse_listing`), and the last one stands for
    the names with the ending (`isMatch_ofEnding`).

    What is found are the files of the directory with the ending, each once, at paths that
    are written anew (**`exists_names_filesMatching`**); and nothing is found if the start
    of the directory's path is lost (**`filesMatching_of_lost`**). -/

namespace TaskRunner

/-! ## Patterns without wildcards -/

/-- The characters that mean something in a pattern: without these all characters stand for
themselves. -/
def wildcards : List Char := ['?', '*', '[']

/-- No character of the text means anything in a pattern. -/
def IsPlain (s : Text) : Prop := ∀ c ∈ s, c ∉ wildcards

instance (s : Text) : Decidable (IsPlain s) :=
  decidable_of_iff (s.all (!wildcards.contains ·) = true) (by simp [IsPlain])

namespace Pattern

variable {s t ending : Text} {c : Char}

/-- The pattern that stands for a text. -/
def ofText (s : Text) : Pattern := s.map .exactly

/-- The pattern that stands for all names with an ending. -/
def ofEnding (ending : Text) : Pattern := .anyText :: ofText ending

@[simp] theorem literal?_ofText (s : Text) : (ofText s).literal? = some s := by
  induction s with
  | nil => rfl
  | cons c s ih =>
      show (literal? (ofText s)).map (c :: ·) = _
      rw [ih]
      rfl

theorem isMatch_ofText : (ofText s).isMatch t = true ↔ t = s := by
  induction s generalizing t with
  | nil => simp [ofText, isMatch, advance]
  | cons c s ih =>
      show Pattern.isMatch (.exactly c :: ofText s) t = true ↔ _
      rw [isMatch_cons]
      cases t with
      | nil => simp [Wildcard.advance, Wildcard.takeOne?]
      | cons d t =>
          by_cases hc : d = c
          · simp [Wildcard.advance, Wildcard.takeOne?, Wildcard.fits, hc, ih]
          · simp [Wildcard.advance, Wildcard.takeOne?, Wildcard.fits, hc]

theorem isMatch_ofEnding : (ofEnding ending).isMatch t = true ↔ ending <:+ t := by
  rw [ofEnding, isMatch_anyText, List.any_eq_true]
  constructor
  · rintro ⟨r, hr, hmatch⟩
    rw [← isMatch_ofText.mp hmatch]
    exact Text.mem_ends.mp hr
  · exact fun h => ⟨ending, Text.mem_ends.mpr h, isMatch_ofText.mpr rfl⟩

theorem parseFrom_cons_plain (hc : c ∉ wildcards) (position : Nat) (previous : Option Char)
    (rest : Text) : parseFrom position previous (c :: rest)
      = (parseFrom (position + 1) (some c) rest).map (.exactly c :: ·) := by
  simp only [wildcards, List.mem_cons, List.not_mem_nil, or_false, not_or] at hc
  rw [parseFrom.eq_def]
  dsimp only
  rw [if_neg hc.1, if_neg hc.2.1, if_neg hc.2.2]

/-- What stands in front of a pattern and means nothing stands for itself. -/
theorem parseFrom_append (hs : IsPlain s) {position : Nat} {previous : Option Char} {rest : Text}
    {pattern : Pattern}
    (h : ∀ position previous, parseFrom position previous rest = .ok pattern) :
    parseFrom position previous (s ++ rest) = .ok (ofText s ++ pattern) := by
  induction s generalizing position previous with
  | nil => exact h position previous
  | cons c s ih =>
      obtain ⟨hc, hs⟩ := List.forall_mem_cons.mp hs
      rw [List.cons_append, parseFrom_cons_plain hc, ih hs]
      rfl

theorem parseFrom_plain (hs : IsPlain s) (position : Nat) (previous : Option Char) :
    parseFrom position previous s = .ok (ofText s) := by
  have h : parseFrom position previous (s ++ []) = .ok (ofText s ++ []) :=
    parseFrom_append hs fun _ _ => by rw [parseFrom]
  rwa [List.append_nil, List.append_nil] at h

/-- A star and an ending. -/
theorem parseFrom_star (hending : IsPlain ending) (position : Nat) (previous : Option Char) :
    parseFrom position previous ('*' :: ending) = .ok (ofEnding ending) := by
  have hstar : ∀ rest, ending ≠ '*' :: rest := by
    rintro rest rfl
    exact absurd (by decide) (hending '*' List.mem_cons_self)
  rw [parseFrom, if_neg (by decide), if_pos rfl, parseFrom_plain hending]
  · rfl
  · exact fun rest h => hstar _ h
  · exact hstar

end Pattern

/-! ## Reading a listing -/

/-- A piece of a text means nothing if the text means nothing. -/
theorem IsPlain.piece {s piece : Text} (hs : IsPlain s) (h : piece ∈ s.splitOn '/') :
    IsPlain piece := by
  intro c hc
  obtain ⟨first, rest, hsplit⟩ := List.exists_cons_of_ne_nil (List.splitOn_ne_nil '/' s)
  refine hs c ?_
  rw [← Path.ofPieces_splitOn s, hsplit, Path.ofPieces_cons]
  rw [hsplit] at h
  obtain rfl | h := List.mem_cons.mp h
  · exact List.mem_append_left _ hc
  · exact List.mem_append_right _
      (List.mem_flatMap.mpr ⟨piece, h, List.mem_cons_of_mem _ hc⟩)

theorem mapM_parse_plain {pieces : List Text} (h : ∀ piece ∈ pieces, IsPlain piece) :
    pieces.mapM Pattern.parse = .ok (pieces.map Pattern.ofText) := by
  induction pieces with
  | nil => rfl
  | cons piece pieces ih =>
      obtain ⟨hpiece, hpieces⟩ := List.forall_mem_cons.mp h
      rw [List.mapM_cons, Pattern.parse, Pattern.parseFrom_plain hpiece, ih hpieces]
      rfl

/-- The pieces of a text behind the slash that it may start with. -/
def bodyPieces (s : Text) : List Text :=
  (if s.head? == some '/' then s.drop 1 else s).splitOn '/'

theorem isPlain_bodyPieces {s piece : Text} (hs : IsPlain s) (h : piece ∈ bodyPieces s) :
    IsPlain piece := by
  rw [bodyPieces] at h
  refine IsPlain.piece (fun c hc => hs c ?_) h
  split at hc
  · exact List.mem_of_mem_drop hc
  · exact hc

/-- The pieces of a text with one more behind a slash. -/
theorem slashPieces_append {piece : Text} (body : Text) (hne : piece ≠ []) (hslash : '/' ∉ piece) :
    slashPieces (body ++ '/' :: piece) = body.splitOn '/' ++ [piece] := by
  rw [slashPieces, List.splitOn_append_cons_self, List.splitOn_eq_singleton hslash,
    List.getLast?_concat]
  exact if_neg (by simpa using hne)

theorem slashPieces_body {s piece : Text} (hs : s ≠ []) (hne : piece ≠ []) (hslash : '/' ∉ piece) :
    slashPieces (if s.head? == some '/' then (s ++ '/' :: piece).drop 1 else s ++ '/' :: piece)
      = bodyPieces s ++ [piece] := by
  obtain ⟨c, rest, rfl⟩ := List.exists_cons_of_ne_nil hs
  rw [bodyPieces]
  split
  · exact slashPieces_append rest hne hslash
  · exact slashPieces_append (c :: rest) hne hslash

/-- **A LISTING IS READ** as the pieces of a directory, which stand for themselves, and the names
with an ending. -/
theorem parse_listing {dir ending : Text} (hdir : IsPlain dir) (hne : dir ≠ [])
    (hending : IsPlain ending) (hslash : '/' ∉ ending) :
    PathPattern.parse (dir ++ '/' :: '*' :: ending)
      = .ok ⟨dir.head? == some '/', (bodyPieces dir).map Pattern.ofText ++ [.ofEnding ending],
          false⟩ := by
  have hwhole : Pattern.parse (dir ++ '/' :: '*' :: ending)
      = .ok (Pattern.ofText dir ++ (.exactly '/' :: Pattern.ofEnding ending)) := by
    refine Pattern.parseFrom_append hdir fun position previous => ?_
    rw [Pattern.parseFrom_cons_plain (by decide), Pattern.parseFrom_star hending]
    rfl
  have hstar : '/' ∉ '*' :: ending := by
    rw [List.mem_cons, not_or]
    exact ⟨by decide, hslash⟩
  have hlisted : (bodyPieces dir ++ ['*' :: ending]).mapM Pattern.parse
      = .ok ((bodyPieces dir).map Pattern.ofText ++ [.ofEnding ending]) := by
    rw [List.mapM_append, mapM_parse_plain fun _ hpiece => isPlain_bodyPieces hdir hpiece,
      List.mapM_cons, Pattern.parse, Pattern.parseFrom_star hending]
    rfl
  have hlast : ((dir ++ '/' :: '*' :: ending).getLast? == some '/') = false := by
    rw [List.getLast?_append_of_ne_nil _ (List.cons_ne_nil _ _),
      List.getLast?_cons_of_ne_nil (List.cons_ne_nil _ _), beq_eq_false_iff_ne]
    exact fun h => hstar (List.mem_of_getLast? h)
  rw [PathPattern.parse, hwhole, hlast, List.head?_append_of_ne_nil dir hne]
  dsimp only
  rw [slashPieces_body hne (List.cons_ne_nil _ _) hstar, hlisted]

/-! ## What the search finds -/

/-- A step by a name goes on to the entry of that name. -/
theorem Place.entry_of_step {p q : Place} {name : Text} (hname : IsName name)
    (h : p.step name = .ok q) :
    ∃ entries node, p.node = .directory entries ∧
      Node.child? (String.ofList name) entries = some node ∧
      q = ⟨p.root, (String.ofList name, node) :: p.trail⟩ := by
  obtain ⟨entries, hnode, ⟨hnegligible, -⟩ | ⟨hback, -⟩ | ⟨-, -, node, hentry, rfl⟩⟩ :=
    Place.step_cases h
  · rw [hname.counts] at hnegligible
    cases hnegligible
  · exact absurd hback hname.forward
  · exact ⟨entries, node, hnode, hentry, rfl⟩

namespace Files

variable {files : Files} {path : Path} {ending : Text} {pathOf : Text → Path}
  {pieces : List Text}

/-- The names of the entries that a search lists: names with the ending, each once, and among them
all that lead to files. -/
structure Lists (files : Files) (ending : Text) (pathOf : Text → Path) (names : List Text) :
    Prop where
  nodup : names.Nodup
  isName : ∀ name ∈ names, IsName name
  ends : ∀ name ∈ names, ending <:+ name
  complete : ∀ name, IsName name → ending <:+ name → files.isFile (pathOf name) = true →
    name ∈ names

/-- Where no path leads to a file, nothing need be listed. -/
theorem lists_nil (h : ∀ name, IsName name → files.isFile (pathOf name) = false) :
    files.Lists ending pathOf [] := by
  refine ⟨List.nodup_nil, List.forall_mem_nil _, List.forall_mem_nil _, ?_⟩
  intro name hname _ hfile
  rw [h name hname] at hfile
  cases hfile

theorem isFile_iff : files.isFile path = true ↔
    ∃ q, files.find path = .ok q ∧ q.node.isFile = true := by
  rw [isFile]
  constructor
  · intro h
    split at h
    · rename_i q hq
      exact ⟨q, hq, h⟩
    · cases h
  · rintro ⟨q, hq, hfile⟩
    rw [hq]
    exact hfile

/-- The names with an ending among those of entries. -/
def namesEnding (ending : Text) (entries : List (String × Node)) : List Text :=
  (entries.map (·.1.toList)).filter (Pattern.ofEnding ending).isMatch

theorem mem_namesEnding {entries : List (String × Node)} {name : Text} :
    name ∈ namesEnding ending entries ↔
      ending <:+ name ∧ ∃ entry ∈ entries, entry.1.toList = name := by
  rw [namesEnding, List.mem_filter, Pattern.isMatch_ofEnding, List.mem_map, and_comm]

/-- A star and an ending lead to the entries of a directory whose names have the ending. -/
theorem followEntries_ofEnding (entries : List (String × Node)) :
    files.followEntries false (.ofEnding ending) [] path entries
      = (namesEnding ending entries).map (entryPath path) := by
  induction entries with
  | nil => rw [followEntries]; rfl
  | cons entry entries ih =>
      obtain ⟨name, node⟩ := entry
      have hdepth : isAnyDepth (.ofEnding ending) = false := by
        simp [isAnyDepth, Pattern.ofEnding]
      rw [followEntries_cons, followEntry, hdepth, if_neg Bool.false_ne_true, ih, namesEnding,
        namesEnding, List.map_cons]
      by_cases hmatch : (Pattern.ofEnding ending).isMatch name.toList = true
      · rw [if_pos hmatch, List.filter_cons_of_pos hmatch, List.map_cons, follow]
        rfl
      · rw [if_neg hmatch, List.filter_cons_of_neg hmatch]
        rfl

theorem follow_ofEnding (entries : List (String × Node))
    (hshort : Text.octets path.text ≤ maxPathOctets) :
    files.follow false [.ofEnding ending] path (.directory entries)
      = files.followEntries false (.ofEnding ending) [] path entries := by
  have hspecial : ∀ name, files.enterSpecial false (.ofEnding ending) [] path name = [] := by
    intro name
    rw [enterSpecial]
    exact if_neg fun h => by cases h.1
  rw [follow]
  show (if maxPathOctets < Text.octets path.text then [] else _ ++ _ ++ _) = _
  rw [if_neg (Nat.not_lt_of_le hshort), hspecial, hspecial]
  rfl

/-- What a path with a name behind it leads to is an entry of the directory that the path leads
to. -/
theorem entry_of_find_join (hpath : path.text ≠ []) {name : Text} (hname : IsName name)
    {p q : Place} (hp : files.find path = .ok p) (h : files.find (path.join ⟨name⟩) = .ok q) :
    ∃ entries node, p.node = .directory entries ∧ (String.ofList name, node) ∈ entries := by
  obtain ⟨before, hbefore, hstep⟩ := find_join hpath hname.whole h
  rw [hp] at hbefore
  cases hbefore
  obtain ⟨entries, node, hnode, hentry, -⟩ := Place.entry_of_step hname hstep
  exact ⟨entries, node, hnode, Node.mem_of_child? hentry⟩

/-- The names with an ending of a directory are listed. -/
theorem lists_namesEnding (hfiles : files.Proper) (hpath : path.text ≠ []) {p : Place}
    (hp : files.find path = .ok p) {entries : List (String × Node)}
    (hnode : p.node = .directory entries) :
    files.Lists ending (fun name => path.join ⟨name⟩) (namesEnding ending entries) := by
  obtain ⟨hroot, hstands⟩ := find_stands hfiles hp
  have hproper : (Node.directory entries).Proper := by
    rw [← hnode]
    obtain ⟨root, trail⟩ := p
    obtain rfl : root = files.root := hroot
    exact hstands.node_proper hfiles.root
  cases hproper with
  | directory hnodup hnames _ =>
      refine ⟨?_, fun name h => ?_, fun name h => (mem_namesEnding.mp h).1,
        fun name hname hends hfile => ?_⟩
      · have hdistinct := hnodup.map (f := String.toList) fun _ _ => String.toList_injective
        rw [List.map_map] at hdistinct
        exact hdistinct.sublist List.filter_sublist
      · obtain ⟨-, entry, hentry, rfl⟩ := mem_namesEnding.mp h
        exact hnames entry hentry
      · obtain ⟨q, hq, -⟩ := isFile_iff.mp hfile
        obtain ⟨entries', node, hdirectory, hentry⟩ := entry_of_find_join hpath hname hp hq
        cases hnode.symm.trans hdirectory
        exact mem_namesEnding.mpr ⟨hends, _, hentry, String.toList_ofList⟩

/-- Where the search has come to a path that leads somewhere, it lists what is there. -/
theorem exists_names_follow (hfiles : files.Proper) {p : Place} (hp : files.find path = .ok p)
    (hsame : path.same (.ofString ".") = false) :
    ∃ names, files.Lists ending (fun name => path.join ⟨name⟩) names ∧
      files.follow false [.ofEnding ending] path p.node
        = names.map fun name => path.join ⟨name⟩ := by
  have hask := (find_eq_ok_iff.mp hp).1
  cases hnode : p.node with
  | file content =>
      refine ⟨[], lists_nil fun name hname => Bool.eq_false_iff.mpr fun hfile => ?_, ?_⟩
      · obtain ⟨q, hq, -⟩ := isFile_iff.mp hfile
        obtain ⟨entries, node, hdirectory, -⟩ := entry_of_find_join hask.nonempty hname hp hq
        cases hnode.symm.trans hdirectory
      · rw [follow]
        rfl
  | directory entries =>
      refine ⟨namesEnding ending entries, lists_namesEnding hfiles hask.nonempty hp hnode, ?_⟩
      rw [follow_ofEnding entries hask.short, followEntries_ofEnding]
      refine List.map_congr_left fun name _ => ?_
      rw [entryPath, hsame]
      rfl

/-- A path leads somewhere if it does so with pieces behind it. -/
theorem exists_find_of_joinAll {q : Place} (hpath : path.text ≠ [])
    (hpieces : ∀ piece ∈ pieces, '/' ∉ piece) (h : files.find (path.joinAll pieces) = .ok q) :
    ∃ p, files.find path = .ok p := by
  induction pieces generalizing path with
  | nil => exact ⟨q, h⟩
  | cons piece pieces ih =>
      obtain ⟨hpiece, hpieces⟩ := List.forall_mem_cons.mp hpieces
      obtain ⟨next, hnext⟩ := ih (Path.text_join_ne_nil hpath hpiece) hpieces h
      obtain ⟨before, hbefore, -⟩ := find_join hpath hpiece hnext
      exact ⟨before, hbefore⟩

/-- Behind a path that leads nowhere nothing need be listed. -/
theorem lists_nil_of_error {e : PathError} (hpath : path.text ≠ [])
    (hpieces : ∀ piece ∈ pieces, '/' ∉ piece) (hfind : files.find path = .error e) :
    files.Lists ending (fun name => (path.joinAll pieces).join ⟨name⟩) [] := by
  refine lists_nil fun name hname => Bool.eq_false_iff.mpr fun hfile => ?_
  obtain ⟨q, hq, -⟩ := isFile_iff.mp hfile
  rw [← Path.joinAll_concat] at hq
  have hall : ∀ piece ∈ pieces ++ [name], '/' ∉ piece :=
    List.forall_mem_append.mpr ⟨hpieces, List.forall_mem_singleton.mpr hname.whole⟩
  obtain ⟨before, hbefore⟩ := exists_find_of_joinAll hpath hall hq
  cases hfind.symm.trans hbefore

/-- **A DIRECTORY IS LISTED**: the pieces of a path lead to a directory, and from there the ending
leads to its entries. -/
theorem exists_names_enter (hfiles : files.Proper) (hpath : path.text ≠ [])
    (hsame : path.same (.ofString ".") = false) (hpieces : ∀ piece ∈ pieces, '/' ∉ piece) :
    ∃ names, files.Lists ending (fun name => (path.joinAll pieces).join ⟨name⟩) names ∧
      files.enter false (pieces.map Pattern.ofText ++ [.ofEnding ending]) path
        = names.map fun name => (path.joinAll pieces).join ⟨name⟩ := by
  induction pieces generalizing path with
  | nil =>
      rw [List.map_nil, List.nil_append, enter]
      cases hfind : files.find path with
      | error e => exact ⟨[], lists_nil_of_error hpath hpieces hfind, rfl⟩
      | ok p => exact exists_names_follow hfiles hfind hsame
  | cons piece pieces ih =>
      rw [List.map_cons, List.cons_append, enter]
      cases hfind : files.find path with
      | error e => exact ⟨[], lists_nil_of_error hpath hpieces hfind, rfl⟩
      | ok p =>
          obtain ⟨hpiece, hpieces⟩ := List.forall_mem_cons.mp hpieces
          show ∃ names, _ ∧ files.follow _ (_ :: _) _ _ = _
          rw [follow_literal (Pattern.literal?_ofText piece), entryPath, hsame,
            if_neg Bool.false_ne_true]
          refine ih (Path.text_join_ne_nil hpath hpiece) ?_ hpieces
          exact Bool.eq_false_iff.mpr fun h =>
            Bool.eq_false_iff.mp hsame (Path.same_of_same_join hpath hpiece h).1

end Files

/-! ## Listing a directory -/

namespace Files

variable {files : Files} {path dir : Path} {ending first : Text} {pathOf : Text → Path}
  {dots pieces : List Text}

theorem Lists.congr {pathOf pathOf' : Text → Path} {names : List Text}
    (h : files.Lists ending pathOf names)
    (hsame : ∀ name, IsName name → pathOf name = pathOf' name) :
    files.Lists ending pathOf' names ∧ names.map pathOf = names.map pathOf' := by
  refine ⟨⟨h.nodup, h.isName, h.ends, fun name hname hends hfile => ?_⟩,
    List.map_congr_left fun name hmem => hsame name (h.isName name hmem)⟩
  rw [← hsame name hname] at hfile
  exact h.complete name hname hends hfile

/-- A directory is listed from the root. -/
theorem exists_names_glob_of_root (hfiles : files.Proper) (body : Text) :
    ∃ names, files.Lists ending (fun name => ((Path.mk ('/' :: body)).join ⟨name⟩).tidied) names ∧
      files.glob ⟨true, (body.splitOn '/').map Pattern.ofText ++ [.ofEnding ending], false⟩
        = names.map fun name => ((Path.mk ('/' :: body)).join ⟨name⟩).tidied := by
  obtain ⟨piece, pieces, hsplit⟩ := List.exists_cons_of_ne_nil (List.splitOn_ne_nil '/' body)
  have hslash : ∀ other ∈ piece :: pieces, '/' ∉ other := fun other hother =>
    Path.slash_of_mem_splitOn (hsplit ▸ hother)
  obtain ⟨hpiece, hpieces⟩ := List.forall_mem_cons.mp hslash
  have hroot : (Path.ofString "/").text ≠ [] := List.cons_ne_nil _ _
  have hsame : ((Path.ofString "/").join ⟨piece⟩).same (.ofString ".") = false :=
    Bool.eq_false_iff.mpr fun h =>
      absurd (Path.same_of_same_join hroot hpiece h).1 (by decide)
  have htidied : ∀ name, IsName name →
      (((Path.ofString "/").join ⟨piece⟩).joinAll pieces).join ⟨name⟩
        = ((Path.mk ('/' :: body)).join ⟨name⟩).tidied := by
    intro name hname
    rw [Path.tidied_of_absolute hname.whole hname.ne_nil, hsplit]
    rfl
  obtain ⟨names, hlists, hfound⟩ :=
    exists_names_enter hfiles (Path.text_join_ne_nil hroot hpiece) hsame hpieces
  obtain ⟨hlists, hmap⟩ := hlists.congr htidied
  refine ⟨names, hlists, ?_⟩
  rw [← hmap, ← hfound, glob, if_pos rfl, hsplit, List.map_cons, List.cons_append,
    follow_literal (Pattern.literal?_ofText piece)]
  rfl

/-- Points at the start of a pattern lead to the working directory. -/
theorem follow_dots (files : Files) (hdots : ∀ dot ∈ dots, dot = ['.']) (first : Text)
    (rest : List Pattern) (node : Node) :
    files.follow false (dots.map Pattern.ofText ++ .ofText first :: rest) (.ofString ".") node
        = files.enter false rest ⟨first⟩ ∨
      files.follow false (dots.map Pattern.ofText ++ .ofText first :: rest) (.ofString ".") node
        = [] ∧ ∀ q, files.find (.ofString ".") ≠ .ok q := by
  induction dots generalizing node with
  | nil =>
      refine .inl ?_
      rw [List.map_nil, List.nil_append, follow_literal (Pattern.literal?_ofText first)]
      rfl
  | cons dot dots ih =>
      obtain ⟨hdot, hmore⟩ := List.forall_mem_cons.mp hdots
      rw [hdot, List.map_cons, List.cons_append, follow_literal (Pattern.literal?_ofText _),
        show entryPath (.ofString ".") ['.'] = .ofString "." from rfl, enter]
      cases hfind : files.find (.ofString ".") with
      | error e => exact .inr ⟨rfl, fun q hq => by cases hq⟩
      | ok p =>
          obtain hfollow | ⟨-, hnone⟩ := ih hmore p.node
          · exact .inl hfollow
          · exact absurd hfind (hnone p)

/-- Where any path from the working directory leads somewhere, a point leads to that directory. -/
theorem find_dot_of_relative {q : Place} (hrelative : path.isAbsolute = false)
    (h : files.find path = .ok q) :
    ∃ here, files.here = .ok here ∧ files.find (.ofString ".") = .ok here := by
  obtain ⟨-, hwalk⟩ := find_eq_ok_iff.mp h
  rw [piecesOf, hrelative, if_neg Bool.false_ne_true, Place.walk_append_iff, ← here_eq] at hwalk
  obtain ⟨here, hhere, hwalk⟩ := hwalk
  obtain ⟨first, rest, hsplit⟩ := List.exists_cons_of_ne_nil (List.splitOn_ne_nil '/' path.text)
  rw [hsplit] at hwalk
  obtain ⟨next, hstep, -⟩ := Place.walk_cons_iff.mp hwalk
  obtain ⟨entries, hnode, -⟩ := Place.step_cases hstep
  refine ⟨here, hhere, find_eq_ok_iff.mpr ⟨⟨by decide, by decide, by decide⟩, ?_⟩⟩
  have hpieces : files.piecesOf (.ofString ".")
      = files.workingDir.map String.toList ++ [['.']] := rfl
  rw [hpieces, Place.walk_concat_iff]
  refine ⟨here, hhere, (Place.step_negligible_iff rfl).mpr ⟨rfl, ?_⟩⟩
  rw [hnode]
  rfl

/-- If a point does not lead to the working directory, no path from there leads to a file. -/
theorem lists_nil_of_relative (hrelative : ∀ name, IsName name → (pathOf name).isAbsolute = false)
    (hnone : ∀ q, files.here = .ok q → files.find (.ofString ".") ≠ .ok q) :
    files.Lists ending pathOf [] := by
  refine lists_nil fun name hname => Bool.eq_false_iff.mpr fun hfile => ?_
  obtain ⟨q, hq, -⟩ := isFile_iff.mp hfile
  obtain ⟨here, hhere, hfound⟩ := find_dot_of_relative (hrelative name hname) hq
  exact hnone here hhere hfound

/-- A directory is listed from the working directory. -/
theorem exists_names_glob_of_here (hfiles : files.Proper)
    (hdir : dir.text.splitOn '/' = dots ++ first :: pieces) (hdots : ∀ dot ∈ dots, dot = ['.'])
    (hempty : first ≠ []) (hdot : first ≠ ['.']) (hrelative : dir.isAbsolute = false) :
    ∃ names, files.Lists ending (fun name => (dir.join ⟨name⟩).tidied) names ∧
      files.glob ⟨false, (dir.text.splitOn '/').map Pattern.ofText ++ [.ofEnding ending], false⟩
        = names.map fun name => (dir.join ⟨name⟩).tidied := by
  have hslash : ∀ piece ∈ first :: pieces, '/' ∉ piece := fun piece hpiece =>
    Path.slash_of_mem_splitOn (hdir ▸ List.mem_append_right dots hpiece)
  obtain ⟨hfirst, hpieces⟩ := List.forall_mem_cons.mp hslash
  have htidied : ∀ name, IsName name → ((Path.mk first).joinAll pieces).join ⟨name⟩
      = (dir.join ⟨name⟩).tidied := fun name hname =>
    (Path.tidied_of_relative hdir hdots hempty hdot hrelative hname.whole hname.ne_nil).symm
  have hnot : ∀ name, IsName name → (dir.join ⟨name⟩).tidied.isAbsolute = false := by
    intro name hname
    rw [Path.isAbsolute_tidied,
      Path.isAbsolute_join_relative dir (Path.isAbsolute_of_slash hname.whole), hrelative]
  rw [glob, if_neg Bool.false_ne_true]
  cases hhere : files.here with
  | error e =>
      refine ⟨[], lists_nil_of_relative hnot fun q hq => ?_, rfl⟩
      cases hhere.symm.trans hq
  | ok here =>
      rw [hdir, List.map_append, List.map_cons, List.append_assoc, List.cons_append]
      obtain hfollow | ⟨hfollow, hnone⟩ :=
        follow_dots files hdots first (pieces.map Pattern.ofText ++ [.ofEnding ending]) here.node
      · have hsame := Path.same_dot_of_piece hfirst hempty hdot
        obtain ⟨names, hlists, hfound⟩ := exists_names_enter hfiles hempty hsame hpieces
        obtain ⟨hlists, hmap⟩ := hlists.congr htidied
        exact ⟨names, hlists, hfollow.trans (hfound.trans hmap)⟩
      · exact ⟨[], lists_nil_of_relative hnot fun q _ => hnone q, hfollow⟩

/-- Behind points and an empty piece nothing is found. -/
theorem glob_of_lost (files : Files) (hdots : ∀ dot ∈ dots, dot = ['.']) (rest : List Pattern) :
    files.glob ⟨false, dots.map Pattern.ofText ++ .ofText [] :: rest, false⟩ = [] := by
  rw [glob, if_neg Bool.false_ne_true]
  cases files.here with
  | error e => rfl
  | ok here =>
      dsimp only
      obtain hfollow | ⟨hfollow, -⟩ := follow_dots files hdots [] rest here.node
      · rw [hfollow, enter]
        cases hfind : files.find ⟨[]⟩ with
        | error e => rfl
        | ok q => exact absurd rfl (find_eq_ok_iff.mp hfind).1.nonempty
      · exact hfollow

end Files

namespace Path

variable {dir : Path}

/-- The path of a directory that can be written in front of a pattern. -/
structure Listable (dir : Path) : Prop where
  plain : IsPlain dir.text
  nonempty : dir.text ≠ []
  closed : dir.text.getLast? ≠ some '/'
  counts : (dir.text.splitOn '/').dropWhile (· == ['.']) ≠ []

end Path

section Matching

variable {files : Files} {dir : Path} {ending : Text}

theorem bodyPieces_of_relative (h : dir.isAbsolute = false) :
    bodyPieces dir.text = dir.text.splitOn '/' := by
  rw [bodyPieces, show (dir.text.head? == some '/') = false from h]
  rfl

theorem filesMatching_of_glob {found : List Path} (hdir : dir.Listable) (hending : IsPlain ending)
    (hslash : '/' ∉ ending)
    (hfound : files.glob ⟨dir.text.head? == some '/',
      (bodyPieces dir.text).map Pattern.ofText ++ [.ofEnding ending], false⟩ = found) :
    filesMatching files (dir.join ⟨'*' :: ending⟩) = (found.filter files.isFile, []) := by
  have hname : '/' ∉ '*' :: ending := by
    rw [List.mem_cons, not_or]
    exact ⟨by decide, hslash⟩
  have htext : (dir.join ⟨'*' :: ending⟩).text = dir.text ++ '/' :: '*' :: ending :=
    Path.Ends.text_join (.inr ⟨rfl, hdir.nonempty, hdir.closed⟩) hname
  rw [filesMatching, htext, parse_listing hdir.plain hdir.nonempty hending hslash]
  dsimp only
  rw [hfound]

/-- **THE FILES OF A DIRECTORY** whose names have an ending are what the pattern leads to, each
once. -/
theorem exists_names_filesMatching (hfiles : files.Proper) (hdir : dir.Listable)
    (hkept : ¬ dir.StartsLost) (hending : IsPlain ending) (hslash : '/' ∉ ending) :
    ∃ names : List Text, names.Nodup ∧
      (∀ name, name ∈ names ↔ IsName name ∧ ending <:+ name ∧
        files.isFile (dir.join ⟨name⟩).tidied = true) ∧
      filesMatching files (dir.join ⟨'*' :: ending⟩)
        = (names.map fun name => (dir.join ⟨name⟩).tidied, []) := by
  have hglob : ∃ names, files.Lists ending (fun name => (dir.join ⟨name⟩).tidied) names ∧
      files.glob ⟨dir.text.head? == some '/',
          (bodyPieces dir.text).map Pattern.ofText ++ [.ofEnding ending], false⟩
        = names.map fun name => (dir.join ⟨name⟩).tidied := by
    cases habsolute : dir.isAbsolute with
    | true =>
        obtain ⟨body, hbody⟩ := Path.isAbsolute_iff.mp habsolute
        obtain rfl : dir = ⟨'/' :: body⟩ := Path.eq_of_text hbody
        exact Files.exists_names_glob_of_root hfiles body
    | false =>
        obtain ⟨dots, first, pieces, hsplit, hdots, hfirst⟩ := Path.exists_dots hdir.counts
        have hempty : first ≠ [] := by
          rintro rfl
          exact hkept ((Path.startsLost_iff hsplit hdots hfirst).mpr
            ⟨Path.dots_ne_nil hdir.nonempty habsolute hsplit, rfl⟩)
        rw [bodyPieces_of_relative habsolute,
          show (dir.text.head? == some '/') = false from habsolute]
        exact Files.exists_names_glob_of_here hfiles hsplit hdots hempty hfirst habsolute
  obtain ⟨names, hlists, hfound⟩ := hglob
  refine ⟨names.filter fun name => files.isFile (dir.join ⟨name⟩).tidied,
    hlists.nodup.sublist List.filter_sublist, fun name => ?_, ?_⟩
  · rw [List.mem_filter]
    constructor
    · rintro ⟨hmem, hfile⟩
      exact ⟨hlists.isName name hmem, hlists.ends name hmem, hfile⟩
    · rintro ⟨hname, hends, hfile⟩
      exact ⟨hlists.complete name hname hends hfile, hfile⟩
  · rw [filesMatching_of_glob hdir hending hslash hfound, List.filter_map]
    rfl

/-- Nothing is found behind a path whose start is lost. -/
theorem filesMatching_of_lost (hdir : dir.Listable) (hlost : dir.StartsLost)
    (hending : IsPlain ending) (hslash : '/' ∉ ending) :
    filesMatching files (dir.join ⟨'*' :: ending⟩) = ([], []) := by
  obtain ⟨dots, first, pieces, hsplit, hdots, hfirst⟩ := Path.exists_dots hdir.counts
  obtain ⟨-, rfl⟩ := (Path.startsLost_iff hsplit hdots hfirst).mp hlost
  have hrelative := hlost.isAbsolute
  have hnone := Files.glob_of_lost files hdots (pieces.map Pattern.ofText ++ [.ofEnding ending])
  have hglob : files.glob ⟨dir.text.head? == some '/',
      (bodyPieces dir.text).map Pattern.ofText ++ [.ofEnding ending], false⟩ = [] := by
    rw [bodyPieces_of_relative hrelative, show (dir.text.head? == some '/') = false from hrelative,
      hsplit, List.map_append, List.map_cons, List.append_assoc, List.cons_append]
    exact hnone
  exact filesMatching_of_glob hdir hending hslash hglob

end Matching

end TaskRunner
