import TaskRunner.Proofs.DirectoryListing
import TaskRunner.Proofs.Fragments

/-! # Where fragments are found

    The fragments beside a task file are looked for in directories behind its parent path,
    which leads to the directory of the file (`exists_taskDirectory`).  The pieces of a path
    that count tell where it leads, so a fragment's path leads into that directory
    (`find_fragmentPath_iff`).

    So **`fragments_are_listed`**: if the parent path has no wildcards and its start is not
    lost, the fragments are the files of these directories with the right ending, each
    once and in order; and the names from the root say where they are. -/

namespace TaskRunner

/-! ## Walks over pieces that count -/

namespace Place

variable {p q : Place} {l : List Text} {name : Text}

/-- Pieces that count for nothing may be left out. -/
theorem walk_filter (h : p.walk l = .ok q) :
    p.walk (l.filter (!Path.isNegligible ·)) = .ok q := by
  induction l generalizing p with
  | nil => exact h
  | cons piece l ih =>
      obtain ⟨next, hstep, hrest⟩ := walk_cons_iff.mp h
      by_cases hpiece : Path.isNegligible piece = true
      · rw [List.filter_cons_of_neg (by simp [hpiece])]
        obtain ⟨rfl, -⟩ := (step_negligible_iff hpiece).mp hstep
        exact ih hrest
      · rw [List.filter_cons_of_pos (by simpa using hpiece)]
        exact walk_cons_iff.mpr ⟨next, hstep, ih hrest⟩

/-- They may also be put in, in front of one that counts. -/
theorem walk_of_filter (hname : IsName name)
    (h : p.walk ((l ++ [name]).filter (!Path.isNegligible ·)) = .ok q) :
    p.walk (l ++ [name]) = .ok q := by
  induction l generalizing p with
  | nil =>
      rwa [List.nil_append, List.filter_cons_of_pos (by rw [hname.counts]; rfl)] at h
  | cons piece l ih =>
      rw [List.cons_append] at h ⊢
      by_cases hpiece : Path.isNegligible piece = true
      · rw [List.filter_cons_of_neg (by simp [hpiece])] at h
        refine walk_cons_iff.mpr ⟨p, (step_negligible_iff hpiece).mpr ⟨rfl, ?_⟩, ih h⟩
        have hmem : name ∈ (l ++ [name]).filter (!Path.isNegligible ·) :=
          List.mem_filter.mpr
            ⟨List.mem_append_right l List.mem_cons_self, by rw [hname.counts]; rfl⟩
        obtain ⟨first, rest, hfirst⟩ := List.exists_cons_of_ne_nil (List.ne_nil_of_mem hmem)
        rw [hfirst] at h
        obtain ⟨next, hstep, -⟩ := walk_cons_iff.mp h
        obtain ⟨entries, hnode, -⟩ := step_cases hstep
        rw [hnode]
        rfl
      · rw [List.filter_cons_of_pos (by simpa using hpiece)] at h
        obtain ⟨next, hstep, hrest⟩ := walk_cons_iff.mp h
        exact walk_cons_iff.mpr ⟨next, hstep, ih hrest⟩

theorem octets_of_step_name (hname : IsName name) (h : p.step name = .ok q) :
    Text.octets name ≤ maxNameOctets := by
  obtain ⟨entries, hnode, -⟩ := step_cases h
  rw [step_of_directory hnode, hname.counts, if_neg Bool.false_ne_true, if_neg hname.forward] at h
  by_contra hlong
  rw [if_pos (Nat.lt_of_not_le hlong)] at h
  cases h

/-- A step that leads to a file does not lead back. -/
theorem forward_of_step_isFile (hp : Stands p.root p.trail) (h : p.step name = .ok q)
    (hfile : q.node.isFile = true) : name ≠ ['.', '.'] := by
  rintro rfl
  obtain ⟨entries, hnode, ⟨hnegligible, -⟩ | ⟨-, rfl⟩ | ⟨-, hforward, -⟩⟩ := step_cases h
  · cases hnegligible
  · have hup : (Place.node ⟨p.root, p.trail.tail⟩).isDirectory = true := by
      refine hp.tail_isDirectory ?_
      rw [show Place.node ⟨p.root, p.trail⟩ = _ from hnode]
      rfl
    rw [Node.isFile, hup] at hfile
    cases hfile
  · exact hforward rfl

/-- Names lead to what they name. -/
theorem names_of_walk (hl : ∀ piece ∈ l, IsName piece) (h : p.walk l = .ok q) :
    q.names = p.names ++ l.map String.ofList := by
  induction l generalizing p with
  | nil =>
      cases h
      exact (List.append_nil _).symm
  | cons piece l ih =>
      obtain ⟨hpiece, hl⟩ := List.forall_mem_cons.mp hl
      obtain ⟨next, hstep, hrest⟩ := walk_cons_iff.mp h
      obtain ⟨-, node, -, -, rfl⟩ := entry_of_step hpiece hstep
      rw [ih hl hrest, names, trailNames_cons, List.append_assoc]
      rfl

/-- What stands in the tree is led to by its names, if none of them is too long. -/
theorem walk_of_stands {root : Node} {trail trail' : List (String × Node)} {l : List String}
    (hl : ∀ name ∈ l, Text.octets name.toList ≤ maxNameOctets) (htrail : Stands root trail)
    (htrail' : Stands root trail') (hnames : trailNames trail' = trailNames trail ++ l) :
    Place.walk ⟨root, trail⟩ (l.map String.toList) = .ok ⟨root, trail'⟩ := by
  induction l using List.reverseRecOn generalizing trail' with
  | nil =>
      rw [List.append_nil] at hnames
      rw [htrail'.unique htrail hnames]
      rfl
  | append_singleton l name ih =>
      obtain ⟨hfirst, hname⟩ := List.forall_mem_append.mp hl
      have hshort := hname name List.mem_cons_self
      rw [← List.append_assoc] at hnames
      cases htrail' with
      | root => exact absurd hnames (by simp [trailNames])
      | entry hbefore hisName hdirectory hentry =>
          rw [trailNames_cons] at hnames
          obtain ⟨hfront, hlast⟩ := List.append_inj' hnames rfl
          obtain rfl := (List.cons.inj hlast).1
          rw [List.map_append, List.map_singleton, walk_concat_iff]
          refine ⟨_, ih hfirst hbefore hfront, ?_⟩
          rw [step_of_directory hdirectory, hisName.counts, if_neg Bool.false_ne_true,
            if_neg hisName.forward, if_neg (Nat.not_lt_of_le hshort), String.ofList_toList, hentry]

end Place

/-! ## The directories of fragments -/

/-- The text of a path that leads on from a directory by short names. -/
structure LeadsOn (s : Text) : Prop where
  plain : IsPlain s
  relative : (Path.mk s).isAbsolute = false
  closed : s.getLast? ≠ some '/'
  whole : (s.splitOn '/').head? ≠ some []
  forward : (s.splitOn '/').head? ≠ some ['.']
  names : ∀ piece ∈ Path.pieces s,
    IsName piece ∧ Text.octets piece ≤ maxNameOctets

instance (name : Text) : Decidable (IsName name) :=
  decidable_of_iff (Path.isNegligible name = false ∧ name ≠ ['.', '.'] ∧ '/' ∉ name)
    ⟨fun ⟨hcounts, hforward, hwhole⟩ => ⟨hcounts, hforward, hwhole⟩,
      fun h => ⟨h.counts, h.forward, h.whole⟩⟩

theorem leadsOn_of_mem_fragmentDirs {dir : String} (h : dir ∈ fragmentDirs) :
    LeadsOn dir.toList := by
  have hplain : ∀ dir ∈ fragmentDirs, IsPlain dir.toList := by decide +kernel
  have hrelative : ∀ dir ∈ fragmentDirs, (Path.mk dir.toList).isAbsolute = false := by decide
  have hclosed : ∀ dir ∈ fragmentDirs, dir.toList.getLast? ≠ some '/' := by decide
  have hstart : ∀ dir ∈ fragmentDirs,
      (dir.toList.splitOn '/').head? ≠ some [] ∧ (dir.toList.splitOn '/').head? ≠ some ['.'] := by
    decide +kernel
  have hnames : ∀ dir ∈ fragmentDirs, ∀ piece ∈ Path.pieces dir.toList,
      IsName piece ∧ Text.octets piece ≤ maxNameOctets := by
    decide +kernel
  exact ⟨hplain dir h, hrelative dir h, hclosed dir h, (hstart dir h).1, (hstart dir h).2,
    hnames dir h⟩

theorem LeadsOn.ne_nil {s : Text} (h : LeadsOn s) : s ≠ [] := by
  rintro rfl
  exact h.whole rfl

namespace Path

variable {path : Path} {s : Text}

theorem text_join_leadsOn (path : Path) (hs : LeadsOn s) : ∃ prior,
    (path.join ⟨s⟩).text = prior ++ s ∧ (IsPlain path.text → IsPlain prior) := by
  rw [join, hs.relative, if_neg Bool.false_ne_true]
  split
  · exact ⟨path.text, rfl, id⟩
  · refine ⟨path.text ++ ['/'], rfl, fun hpath => ?_⟩
    exact List.forall_mem_append.mpr ⟨hpath, List.forall_mem_singleton.mpr (by decide)⟩

theorem text_join_leadsOn_ne_nil (path : Path) (hs : LeadsOn s) : (path.join ⟨s⟩).text ≠ [] := by
  obtain ⟨prior, htext, -⟩ := text_join_leadsOn path hs
  rw [htext]
  exact List.append_ne_nil_of_right_ne_nil _ hs.ne_nil

/-- A directory further in can be written in front of a pattern. -/
theorem listable_join (hpath : IsPlain path.text) (hs : LeadsOn s) : (path.join ⟨s⟩).Listable := by
  obtain ⟨prior, htext, hprior⟩ := text_join_leadsOn path hs
  refine ⟨?_, text_join_leadsOn_ne_nil path hs, ?_, ?_⟩
  · rw [htext]
    exact List.forall_mem_append.mpr ⟨hprior hpath, hs.plain⟩
  · rw [htext, List.getLast?_append_of_ne_nil _ hs.ne_nil]
    exact hs.closed
  · obtain ⟨front, -, hjoin⟩ := splitOn_join path hs.relative
    obtain ⟨first, rest, hfirst⟩ := List.exists_cons_of_ne_nil (List.splitOn_ne_nil '/' s)
    have hforward := hs.forward
    rw [hfirst, List.head?_cons, Ne, Option.some_inj] at hforward
    rw [hjoin, hfirst, List.dropWhile_append]
    split
    · rw [List.dropWhile_cons_of_neg (by simpa using hforward)]
      exact List.cons_ne_nil _ _
    · exact List.append_ne_nil_of_right_ne_nil _ (List.cons_ne_nil _ _)

/-- The start of a path is lost further in only if it is lost already. -/
theorem startsLost_of_join (hs : LeadsOn s) (h : (path.join ⟨s⟩).StartsLost) :
    path.StartsLost := by
  obtain ⟨front, hfront, hjoin⟩ := splitOn_join path hs.relative
  obtain ⟨first, rest, hfirst⟩ := List.exists_cons_of_ne_nil (List.splitOn_ne_nil '/' s)
  obtain ⟨hhead, hdrop⟩ := h
  rw [hjoin] at hhead hdrop
  cases hdots : front.dropWhile (· == ['.']) with
  | nil =>
      -- Then the first piece that is no point is one further in, which is not empty.
      have hforward := hs.forward
      rw [hfirst, List.head?_cons, Ne, Option.some_inj] at hforward
      rw [List.dropWhile_append, hdots, List.isEmpty_nil, if_pos rfl, hfirst,
        List.dropWhile_cons_of_neg (by simpa using hforward), ← hfirst] at hdrop
      exact absurd hdrop hs.whole
  | cons empty more =>
      have hne : front ≠ [] := by
        rintro rfl
        cases hdots
      rw [List.dropWhile_append, hdots] at hdrop
      rw [List.head?_append_of_ne_nil _ hne] at hhead
      obtain hfront | hfront := hfront
      · rw [StartsLost, hfront, hdots]
        exact ⟨hhead, hdrop⟩
      · rw [StartsLost, hfront, List.head?_append_of_ne_nil _ hne, List.dropWhile_append, hdots]
        exact ⟨hhead, hdrop⟩

theorem startsLost_join (hs : LeadsOn s) (hclosed : path.text.getLast? ≠ some '/')
    (h : path.StartsLost) : (path.join ⟨s⟩).StartsLost := by
  obtain ⟨hhead, hdrop⟩ := h
  have hne : path.text ≠ [] := by
    intro hnil
    rw [hnil] at hhead
    cases hhead
  have hjoin : (path.join ⟨s⟩).text.splitOn '/' = path.text.splitOn '/' ++ s.splitOn '/' := by
    rw [join, hs.relative, if_neg Bool.false_ne_true, if_neg fun h => h.elim hne hclosed,
      List.append_assoc]
    exact List.splitOn_append_cons_self path.text s
  cases hdots : (path.text.splitOn '/').dropWhile (· == ['.']) with
  | nil =>
      rw [hdots] at hdrop
      cases hdrop
  | cons empty more =>
      rw [hdots] at hdrop
      rw [StartsLost, hjoin, List.head?_append_of_ne_nil _ (List.splitOn_ne_nil _ _),
        List.dropWhile_append, hdots]
      exact ⟨hhead, hdrop⟩

end Path

/-! ## Where fragments are -/

/-- The directory of a task file, as its path is written. -/
def taskDirectory (path : Path) : Path := path.parent.getD (.ofString ".")

/-- The path that the search writes for a name in a directory beside a task file. -/
def fragmentPath (path : Path) (dir name : String) : Path :=
  (((taskDirectory path).child dir).child name).tidied

section Places

variable {files : Files} {path : Path} {dir name : String}

theorem isAbsolute_fragmentPath (hdir : dir ∈ fragmentDirs) (hname : IsName name.toList) :
    (fragmentPath path dir name).isAbsolute = (taskDirectory path).isAbsolute := by
  rw [fragmentPath, Path.isAbsolute_tidied]
  exact (Path.isAbsolute_join_relative _ (Path.isAbsolute_of_slash hname.whole)).trans
    (Path.isAbsolute_join_relative _ (leadsOn_of_mem_fragmentDirs hdir).relative)

theorem pieces_fragmentPath (hdir : dir ∈ fragmentDirs) (hname : IsName name.toList) :
    Path.pieces (fragmentPath path dir name).text
      = Path.pieces (taskDirectory path).text ++ (Path.pieces dir.toList ++ [name.toList]) := by
  rw [fragmentPath, Path.pieces_tidied, ← Path.pieces_name hname, ← List.append_assoc]
  rw [← Path.pieces_join_relative (leadsOn_of_mem_fragmentDirs hdir).relative]
  exact Path.pieces_join_relative (Path.isAbsolute_of_slash hname.whole)

/-- A path that leads to a file has pieces that count. -/
theorem pieces_ne_nil_of_isFile {p : Place} (hp : files.find path = .ok p)
    (hfile : p.node.isFile = true) : Path.pieces path.text ≠ [] := by
  intro hnone
  obtain ⟨-, hwalk⟩ := Files.find_eq_ok_iff.mp hp
  rw [Files.piecesOf, Place.walk_append_iff] at hwalk
  obtain ⟨start, -, hrest⟩ := hwalk
  obtain ⟨rfl, hdirectory⟩ := Place.walk_negligible (List.splitOn_ne_nil _ _)
    (Path.pieces_eq_nil_iff.mp hnone) hrest
  rw [Node.isFile, hdirectory] at hfile
  cases hfile

/-- The directory of a task file: the place that its parent path leads to, from where all paths
start that are written as this one. -/
structure LiesIn (files : Files) (path : Path) (start directory : Place) : Prop where
  begins : Place.walk ⟨files.root, []⟩
    (if (taskDirectory path).isAbsolute then [] else files.workingDir.map String.toList)
      = .ok start
  leads : start.walk (Path.pieces (taskDirectory path).text) = .ok directory
  root : directory.root = files.root
  stands : Stands files.root directory.trail

/-- **THE DIRECTORY OF A TASK FILE** is where its parent path leads, and is named by all of the
file's names but the last one. -/
theorem exists_taskDirectory (hfiles : files.Proper) {p : Place} (hp : files.find path = .ok p)
    (hfile : p.node.isFile = true) :
    ∃ start directory, LiesIn files path start directory ∧
      directory.names = p.names.dropLast := by
  have hcounts := pieces_ne_nil_of_isFile hp hfile
  obtain ⟨base, hparent⟩ := Path.parent_of_pieces hcounts
  obtain ⟨last, hlast⟩ := Path.pieces_parent hparent hcounts
  have hbase : taskDirectory path = base := by
    rw [taskDirectory, hparent]
    rfl
  obtain ⟨-, hwalk⟩ := Files.find_eq_ok_iff.mp hp
  rw [Files.piecesOf, Place.walk_append_iff] at hwalk
  obtain ⟨start, hstart, hrest⟩ := hwalk
  have hpieces := Place.walk_filter hrest
  rw [← Path.pieces, hlast, Place.walk_concat_iff] at hpieces
  obtain ⟨directory, hdirectory, hstep⟩ := hpieces
  obtain ⟨hroot, hstands⟩ := Place.walk_stands
    (fun _ hmem => Files.slash_of_mem_piecesOf hfiles (List.mem_append_left _ hmem)) .root hstart
  obtain ⟨hroot', hstands'⟩ := Place.walk_stands
    (fun _ hmem => (Path.of_mem_pieces hmem).1) (hroot ▸ hstands) hdirectory
  obtain ⟨hslash, hlastCounts⟩ := Path.of_mem_pieces
    (hlast ▸ List.mem_append_right _ List.mem_cons_self : last ∈ Path.pieces path.text)
  have hforward := Place.forward_of_step_isFile (hroot' ▸ hstands') hstep hfile
  obtain ⟨-, node, -, -, rfl⟩ := Place.entry_of_step ⟨hlastCounts, hforward, hslash⟩ hstep
  refine ⟨start, directory, ⟨?_, ?_, hroot'.trans hroot, ?_⟩, ?_⟩
  · rwa [hbase, Path.isAbsolute_parent hparent hcounts]
  · rwa [hbase]
  · rwa [hroot] at hstands'
  · rw [Place.names, Place.names, trailNames_cons, List.dropLast_concat]

/-- A fragment's path leads through the directory of the task file. -/
theorem LiesIn.walk_fragmentPath {start directory q : Place} (h : LiesIn files path start directory)
    (hdir : dir ∈ fragmentDirs) (hname : IsName name.toList) :
    Place.walk ⟨files.root, []⟩ (files.piecesOf (fragmentPath path dir name)) = .ok q ↔
      directory.walk (Path.pieces dir.toList ++ [name.toList]) = .ok q := by
  have hpieces : Path.pieces (fragmentPath path dir name).text = _ :=
    pieces_fragmentPath hdir hname
  obtain ⟨front, hfront⟩ := Path.exists_splitOn_tidied
    (Path.text_join_leadsOn_ne_nil (taskDirectory path) (leadsOn_of_mem_fragmentDirs hdir)) hname
  have hsplit : (fragmentPath path dir name).text.splitOn '/' = front ++ [name.toList] := hfront
  have hcounting : start.walk ((fragmentPath path dir name).text.splitOn '/') = .ok q ↔
      start.walk (Path.pieces (fragmentPath path dir name).text) = .ok q := by
    refine ⟨Place.walk_filter, fun h => ?_⟩
    rw [Path.pieces, hsplit] at h
    rw [hsplit]
    exact Place.walk_of_filter hname h
  rw [Files.piecesOf, isAbsolute_fragmentPath hdir hname, Place.walk_append_iff]
  constructor
  · rintro ⟨start', hstart', hrest⟩
    cases h.begins.symm.trans hstart'
    rw [hcounting, hpieces, Place.walk_append_iff] at hrest
    obtain ⟨directory', hdirectory', hrest⟩ := hrest
    cases h.leads.symm.trans hdirectory'
    exact hrest
  · refine fun hrest => ⟨start, h.begins, ?_⟩
    rw [hcounting, hpieces, Place.walk_append_iff]
    exact ⟨directory, h.leads, hrest⟩

/-- Names lead from a directory in the tree to what stands under them. -/
theorem walk_names_iff {directory q : Place} {l : List Text} (hl : ∀ piece ∈ l,
      IsName piece ∧ Text.octets piece ≤ maxNameOctets)
    (hroot : directory.root = files.root) (hstands : Stands files.root directory.trail)
    (hname : IsName name.toList) :
    directory.walk (l ++ [name.toList]) = .ok q ↔
      Text.octets name.toList ≤ maxNameOctets ∧ q.root = files.root ∧
        Stands files.root q.trail ∧
        q.names = directory.names ++ l.map String.ofList ++ [name] := by
  have hall : ∀ piece ∈ l ++ [name.toList], IsName piece := List.forall_mem_append.mpr
    ⟨fun piece hpiece => (hl piece hpiece).1, List.forall_mem_singleton.mpr hname⟩
  constructor
  · intro h
    obtain ⟨before, -, hstep⟩ := Place.walk_concat_iff.mp h
    obtain ⟨hroot', hstands'⟩ := Place.walk_stands (fun piece hmem => (hall piece hmem).whole)
      (hroot ▸ hstands) h
    rw [hroot] at hroot' hstands'
    refine ⟨Place.octets_of_step_name hname hstep, hroot', hstands', ?_⟩
    rw [Place.names_of_walk hall h, List.map_append, List.append_assoc]
    simp
  · rintro ⟨hshort, hroot', hstands', hnames⟩
    obtain ⟨root, trail⟩ := directory
    obtain ⟨root', trail'⟩ := q
    obtain rfl : root = files.root := hroot
    obtain rfl : root' = files.root := hroot'
    have hshorts : ∀ inner ∈ l.map String.ofList ++ [name],
        Text.octets inner.toList ≤ maxNameOctets := by
      refine List.forall_mem_append.mpr
        ⟨fun inner hinner => ?_, List.forall_mem_singleton.mpr hshort⟩
      obtain ⟨piece, hpiece, rfl⟩ := List.mem_map.mp hinner
      rw [String.toList_ofList]
      exact (hl piece hpiece).2
    rw [List.append_assoc] at hnames
    have hwalk := Place.walk_of_stands hshorts hstands hstands' hnames
    have htexts : (l.map String.ofList ++ [name]).map String.toList = l ++ [name.toList] := by
      rw [List.map_append, List.map_map]
      simp [Function.comp_def]
    rwa [htexts] at hwalk

/-- **A FRAGMENT'S PATH** leads to what the names say: those of the directory that the task file
lies in, those of the directory of fragments, and its own; if it can be asked for. -/
theorem find_fragmentPath_iff (hfiles : files.Proper) {p q : Place}
    (hp : files.find path = .ok p) (hfile : p.node.isFile = true) (hdir : dir ∈ fragmentDirs)
    (hname : IsName name.toList) :
    files.find (fragmentPath path dir name) = .ok q ↔
      (fragmentPath path dir name).CanAsk ∧ Text.octets name.toList ≤ maxNameOctets ∧
        q.root = files.root ∧ Stands files.root q.trail ∧
        q.names = p.names.dropLast ++ (Path.pieces dir.toList).map String.ofList ++ [name] := by
  obtain ⟨start, directory, hlies, hnames⟩ := exists_taskDirectory hfiles hp hfile
  have hdirs := (leadsOn_of_mem_fragmentDirs hdir).names
  rw [Files.find_eq_ok_iff, hlies.walk_fragmentPath hdir hname,
    walk_names_iff hdirs hlies.root hlies.stands hname, hnames]

end Places

/-! ## The order of paths -/

namespace Path

theorem leComponents_antisymm {as bs : List Component} (hab : leComponents as bs = true)
    (hba : leComponents bs as = true) : as = bs := by
  induction as generalizing bs with
  | nil =>
      cases bs with
      | nil => rfl
      | cons b bs => cases hba
  | cons a as ih =>
      cases bs with
      | nil => cases hab
      | cons b bs =>
          rw [leComponents] at hab hba
          by_cases hsame : a = b
          · rw [if_pos hsame] at hab
            rw [if_pos hsame.symm] at hba
            rw [hsame, ih hab hba]
          · rw [if_neg hsame] at hab
            rw [if_neg (Ne.symm hsame)] at hba
            exact absurd (Component.le_antisymm hab hba) hsame

theorem ofPiece_injective : Function.Injective Component.ofPiece := by
  intro piece other h
  rw [Component.ofPiece, Component.ofPiece] at h
  split at h
  · rename_i hpiece
    split at h
    · rename_i hother
      rw [hpiece, hother]
    · cases h
  · split at h
    · cases h
    · exact String.ofList_injective (Component.named.inj h)

/-- Paths with the same components have the same pieces that count. -/
theorem pieces_eq_of_components {p q : Path} (h : p.components = q.components) :
    pieces p.text = pieces q.text := by
  have hkept : ∀ path : Path, path.components.filter (fun c => c != .root && c != .current)
      = (pieces path.text).map Component.ofPiece := by
    intro path
    have hpieces : ((pieces path.text).map Component.ofPiece).filter
        (fun c => c != .root && c != .current) = (pieces path.text).map Component.ofPiece := by
      refine List.filter_eq_self.mpr fun c hc => ?_
      obtain ⟨piece, -, rfl⟩ := List.mem_map.mp hc
      rw [Component.ofPiece]
      split <;> rfl
    rw [components, pieces_splitStart, List.filter_append, hpieces]
    obtain ⟨body, -, hstart⟩ | ⟨-, hstart⟩ | ⟨body, -, hstart⟩ | ⟨-, hstart⟩ :=
      splitStart_cases path.text
    · rw [hstart]
      rfl
    · rw [hstart]
      rfl
    · rw [hstart]
      rfl
    · rw [hstart]
      rfl
  refine List.map_injective_iff.mpr ofPiece_injective ?_
  rw [← hkept, ← hkept, h]

end Path

/-! ## What is found -/

/-- How the names of fragments end. -/
def fragmentEnding : Text := ".quake".toList

theorem isPlain_fragmentEnding : IsPlain fragmentEnding := by decide

theorem slash_fragmentEnding : '/' ∉ fragmentEnding := by decide

/-- A name with the ending of fragments. -/
structure IsFragmentName (name : String) : Prop where
  whole : '/' ∉ name.toList
  ends : fragmentEnding <:+ name.toList

theorem IsFragmentName.isName {name : String} (h : IsFragmentName name) : IsName name.toList := by
  have hlong : 6 ≤ name.toList.length := h.ends.length_le
  refine ⟨Bool.eq_false_iff.mpr fun hnegligible => ?_, fun hback => ?_, h.whole⟩
  · rw [Path.isNegligible, Bool.or_eq_true, beq_iff_eq, beq_iff_eq] at hnegligible
    obtain hempty | hdot := hnegligible
    · rw [hempty] at hlong
      exact absurd hlong (by decide)
    · rw [hdot] at hlong
      exact absurd hlong (by decide)
  · rw [hback] at hlong
    exact absurd hlong (by decide)

section Search

variable {files : Files} {path : Path} {dir : String}

/-- The files that are found in one of the directories beside a task file. -/
theorem exists_names_listed (hfiles : files.Proper) (hplain : IsPlain (taskDirectory path).text)
    (hkept : ¬ (taskDirectory path).StartsLost) (hdir : dir ∈ fragmentDirs) :
    ∃ names : List String, names.Nodup ∧
      (∀ name, name ∈ names ↔ IsFragmentName name ∧
        files.isFile (fragmentPath path dir name) = true) ∧
      filesMatching files (((taskDirectory path).child dir).child fragmentPattern)
        = (names.map (fragmentPath path dir), []) := by
  have hleads := leadsOn_of_mem_fragmentDirs hdir
  obtain ⟨names, hnodup, hmem, hfound⟩ := exists_names_filesMatching hfiles
    (Path.listable_join hplain hleads) (fun h => hkept (Path.startsLost_of_join hleads h))
    isPlain_fragmentEnding slash_fragmentEnding
  have hpath : ∀ text, fragmentPath path dir (String.ofList text)
      = (((taskDirectory path).child dir).join ⟨text⟩).tidied := by
    intro text
    rw [fragmentPath, Path.child, Path.ofString, String.toList_ofList]
  have hinjective : Function.Injective String.ofList := fun _ _ => String.ofList_injective
  refine ⟨names.map String.ofList, hnodup.map hinjective, fun name => ?_, ?_⟩
  · rw [List.mem_map]
    constructor
    · rintro ⟨text, htext, rfl⟩
      obtain ⟨hname, hends, hfile⟩ := (hmem text).mp htext
      rw [hpath]
      exact ⟨⟨by rw [String.toList_ofList]; exact hname.whole,
        by rw [String.toList_ofList]; exact hends⟩, hfile⟩
    · rintro ⟨hname, hfile⟩
      exact ⟨name.toList, (hmem _).mpr ⟨hname.isName, hname.ends, hfile⟩, String.ofList_toList⟩
  · have hsame : fragmentPath path dir ∘ String.ofList = _ := funext hpath
    rw [List.map_map, hsame]
    exact hfound

/-- The fragments are what each of the directories holds, in order. -/
theorem findFragments_eq (listing : String → List Path) (h : ∀ dir ∈ fragmentDirs,
    filesMatching files (((taskDirectory path).child dir).child fragmentPattern)
      = (listing dir, [])) :
    findFragments files path = ((fragmentDirs.flatMap listing).mergeSort Path.le, []) := by
  have hfound : fragmentDirs.map (fun dir =>
      filesMatching files (((taskDirectory path).child dir).child fragmentPattern))
      = fragmentDirs.map fun dir => (listing dir, []) := List.map_congr_left h
  rw [findFragments, ← taskDirectory, hfound, List.flatMap_map, List.flatMap_map]
  simp

/-- Nothing is found if the start of the directory's path is lost. -/
theorem findFragments_of_lost {p : Place} (hp : files.find path = .ok p)
    (hfile : p.node.isFile = true) (hplain : IsPlain (taskDirectory path).text)
    (hlost : (taskDirectory path).StartsLost) : findFragments files path = ([], []) := by
  have hcounts := pieces_ne_nil_of_isFile hp hfile
  obtain ⟨base, hparent⟩ := Path.parent_of_pieces hcounts
  have hbase : taskDirectory path = base := by
    rw [taskDirectory, hparent]
    rfl
  have hclosed := Path.getLast?_parent hparent hcounts (hbase ▸ hlost.isAbsolute)
  rw [findFragments_eq fun _ => []]
  · rw [List.flatMap_eq_nil_iff.mpr fun _ _ => rfl, List.mergeSort_nil]
  · intro dir hdir
    have hleads := leadsOn_of_mem_fragmentDirs hdir
    exact filesMatching_of_lost (Path.listable_join hplain hleads)
      (Path.startsLost_join hleads (hbase ▸ hclosed) hlost)
      isPlain_fragmentEnding slash_fragmentEnding

/-- The paths in one directory and those in another differ, and so do those of one directory, in
what counts of them. -/
theorem pieces_fragmentPath_inj {dir' name name' : String} (hdir : dir ∈ fragmentDirs)
    (hdir' : dir' ∈ fragmentDirs) (hname : IsFragmentName name) (hname' : IsFragmentName name')
    (h : Path.pieces (fragmentPath path dir name).text
      = Path.pieces (fragmentPath path dir' name').text) : dir = dir' ∧ name = name' := by
  rw [pieces_fragmentPath hdir hname.isName, pieces_fragmentPath hdir' hname'.isName] at h
  obtain ⟨hdirs, hnames⟩ := List.append_inj' (List.append_cancel_left h) rfl
  have hdistinct : ∀ dir ∈ fragmentDirs, ∀ dir' ∈ fragmentDirs,
      Path.pieces dir.toList = Path.pieces dir'.toList → dir = dir' := by
    decide +kernel
  exact ⟨hdistinct dir hdir dir' hdir' hdirs, String.toList_inj.mp (List.cons.inj hnames).1⟩

theorem pairwise_listed {names : String → List String}
    (hnodup : ∀ dir ∈ fragmentDirs, (names dir).Nodup)
    (hnames : ∀ dir ∈ fragmentDirs, ∀ name ∈ names dir, IsFragmentName name) :
    (fragmentDirs.flatMap fun dir => (names dir).map (fragmentPath path dir)).Pairwise
      fun found other => Path.pieces found.text ≠ Path.pieces other.text := by
  refine List.pairwise_flatMap.mpr ⟨fun dir hdir => ?_, ?_⟩
  · refine List.pairwise_map.mpr ((hnodup dir hdir).imp_of_mem fun hname hname' hne hsame => ?_)
    exact hne (pieces_fragmentPath_inj hdir hdir (hnames dir hdir _ hname)
      (hnames dir hdir _ hname') hsame).2
  · have hdistinct : fragmentDirs.Nodup := by decide
    refine hdistinct.imp_of_mem fun {dir dir'} hdir hdir' hne found hfound other hother hsame => ?_
    obtain ⟨name, hname, rfl⟩ := List.mem_map.mp hfound
    obtain ⟨name', hname', rfl⟩ := List.mem_map.mp hother
    exact hne (pieces_fragmentPath_inj hdir hdir' (hnames dir hdir name hname)
      (hnames dir' hdir' name' hname') hsame).1

/-- Paths that differ in what counts of them are sorted strictly. -/
theorem pairwise_mergeSort_paths {l : List Path}
    (h : l.Pairwise fun found other => Path.pieces found.text ≠ Path.pieces other.text) :
    (l.mergeSort Path.le).Pairwise fun found later =>
      found.le later = true ∧ later.le found = false := by
  have hsorted := List.pairwise_mergeSort Path.le_trans Path.le_total l
  have hdistinct := (List.Perm.pairwise_iff (fun hne => Ne.symm hne)
    (List.mergeSort_perm l Path.le)).mpr h
  refine (hsorted.and hdistinct).imp fun ⟨hle, hne⟩ => ⟨hle, Bool.eq_false_iff.mpr fun hge => ?_⟩
  exact hne (Path.pieces_eq_of_components (Path.leComponents_antisymm hle hge))

/-- **FRAGMENTS ARE LISTED**: beside a task file, in whose parent path nothing means anything in a
    pattern, the files are found that lie in the directories of fragments and whose names
    have the ending, each once, in strict order of their paths, and without a warning;
    unless the start of the parent path is lost, when nothing is found at all.  The path of
    a fragment leads just to the node that stands in the tree under the names of the task
    file's directory, of the directory of fragments, and its own. -/
theorem fragments_are_listed {p : Place} (hfiles : files.Proper) (hp : files.find path = .ok p)
    (hfile : p.node.isFile = true) (hplain : IsPlain (taskDirectory path).text) :
    ((taskDirectory path).StartsLost → findFragments files path = ([], [])) ∧
    (¬ (taskDirectory path).StartsLost →
      (findFragments files path).2 = [] ∧
      (∀ found, found ∈ (findFragments files path).1 ↔
        ∃ dir ∈ fragmentDirs, ∃ name, IsFragmentName name ∧ found = fragmentPath path dir name ∧
          files.isFile found = true) ∧
      (findFragments files path).1.Pairwise fun found later =>
        found.le later = true ∧ later.le found = false) ∧
    ∀ dir ∈ fragmentDirs, ∀ name, IsFragmentName name → ∀ q,
      files.find (fragmentPath path dir name) = .ok q ↔
        (fragmentPath path dir name).CanAsk ∧ Text.octets name.toList ≤ maxNameOctets ∧
        q.root = files.root ∧ Stands files.root q.trail ∧
        q.names = p.names.dropLast ++ (Path.pieces dir.toList).map String.ofList ++ [name] := by
  refine ⟨findFragments_of_lost hp hfile hplain, fun hkept => ?_, fun dir hdir name hname q =>
    find_fragmentPath_iff hfiles hp hfile hdir hname.isName⟩
  choose! names hnodup hmem hfound using
    fun dir (hdir : dir ∈ fragmentDirs) => exists_names_listed hfiles hplain hkept hdir
  rw [findFragments_eq _ hfound]
  refine ⟨rfl, fun found => ?_, pairwise_mergeSort_paths (pairwise_listed hnodup
    fun dir hdir name hname => ((hmem dir hdir name).mp hname).1)⟩
  rw [List.mem_mergeSort, List.mem_flatMap]
  constructor
  · rintro ⟨dir, hdir, hlisted⟩
    obtain ⟨name, hname, rfl⟩ := List.mem_map.mp hlisted
    obtain ⟨hending, hisFile⟩ := (hmem dir hdir name).mp hname
    exact ⟨dir, hdir, name, hending, rfl, hisFile⟩
  · rintro ⟨dir, hdir, name, hending, rfl, hisFile⟩
    exact ⟨dir, hdir, List.mem_map_of_mem ((hmem dir hdir name).mpr ⟨hending, hisFile⟩)⟩

/-- A task file with fragments in two directories, and another file beside one of them. -/
def workshop : Files where
  root := .directory [
    ("Quakefile", .file []),
    ("lib", .directory [("qtasks", .directory [("release.quake", .file [])])]),
    ("qtasks", .directory [("build.quake", .file []), ("notes.txt", .file [])])]
  workingDir := []

theorem workshop_proper : workshop.Proper where
  root := by
    have hlib : (Node.directory [("release.quake", .file [])]).Proper :=
      .directory (by decide) (List.forall_mem_singleton.mpr (by decide))
        (List.forall_mem_singleton.mpr .file)
    have hlibs : (Node.directory [("qtasks", .directory [("release.quake", .file [])])]).Proper :=
      .directory (by decide) (List.forall_mem_singleton.mpr (by decide))
        (List.forall_mem_singleton.mpr hlib)
    have hqtasks : (Node.directory [("build.quake", .file []), ("notes.txt", .file [])]).Proper :=
      .directory (by decide)
        (List.forall_mem_cons.mpr ⟨by decide, List.forall_mem_singleton.mpr (by decide)⟩)
        (List.forall_mem_cons.mpr ⟨.file, List.forall_mem_singleton.mpr .file⟩)
    exact .directory (by decide)
      (List.forall_mem_cons.mpr ⟨by decide, List.forall_mem_cons.mpr
        ⟨by decide, List.forall_mem_singleton.mpr (by decide)⟩⟩)
      (List.forall_mem_cons.mpr ⟨.file, List.forall_mem_cons.mpr
        ⟨hlibs, List.forall_mem_singleton.mpr hqtasks⟩⟩)
  workingDir := fun _ h => absurd h List.not_mem_nil

/-- Its fragments are found, and not the other file. -/
theorem workshop_is_listed :
    workshop.Proper ∧ workshop.isFile (.ofString "./Quakefile") = true ∧
      IsPlain (taskDirectory (.ofString "./Quakefile")).text ∧
      .ofString "qtasks/build.quake" ∈ (findFragments workshop (.ofString "./Quakefile")).1 ∧
      .ofString "lib/qtasks/release.quake"
        ∈ (findFragments workshop (.ofString "./Quakefile")).1 ∧
      .ofString "qtasks/notes.txt" ∉ (findFragments workshop (.ofString "./Quakefile")).1 := by
  have hfile : workshop.isFile (.ofString "./Quakefile") = true := by cbv
  have hplain : IsPlain (taskDirectory (.ofString "./Quakefile")).text := by decide
  obtain ⟨p, hp, hisFile⟩ := Files.isFile_iff.mp hfile
  obtain ⟨-, hlisted, -⟩ := fragments_are_listed workshop_proper hp hisFile hplain
  obtain ⟨-, hmem, -⟩ := hlisted (by decide)
  refine ⟨workshop_proper, hfile, hplain, (hmem _).mpr ?_, (hmem _).mpr ?_, fun h => ?_⟩
  · exact ⟨"qtasks", by decide, "build.quake", ⟨by decide, by decide⟩, by decide, by cbv⟩
  · exact ⟨"lib/qtasks", by decide, "release.quake", ⟨by decide, by decide⟩, by decide, by cbv⟩
  · obtain ⟨dir, hdir, name, hname, hsame, -⟩ := (hmem _).mp h
    have hpieces : Path.pieces (fragmentPath (.ofString "./Quakefile") dir name).text = _ :=
      pieces_fragmentPath hdir hname.isName
    have hlast := congrArg List.getLast? hpieces
    rw [← hsame, ← List.append_assoc, List.getLast?_concat] at hlast
    have hnotes : (Path.pieces (Path.ofString "qtasks/notes.txt").text).getLast?
        = some "notes.txt".toList := by decide +kernel
    have hends := hname.ends
    rw [← Option.some.inj (hnotes.symm.trans hlast)] at hends
    exact absurd hends (by decide)

/-- A task file and a fragment in a directory whose name has brackets. -/
def bracketed : Files where
  root := .directory [("a[b]", .directory [
    ("Quakefile", .file []), ("qtasks", .directory [("x.quake", .file [])])])]
  workingDir := []

theorem bracketed_proper : bracketed.Proper where
  root := by
    have hqtasks : (Node.directory [("x.quake", .file [])]).Proper :=
      .directory (by decide) (List.forall_mem_singleton.mpr (by decide))
        (List.forall_mem_singleton.mpr .file)
    have hinside : (Node.directory [("Quakefile", .file []),
        ("qtasks", .directory [("x.quake", .file [])])]).Proper :=
      .directory (by decide)
        (List.forall_mem_cons.mpr ⟨by decide, List.forall_mem_singleton.mpr (by decide)⟩)
        (List.forall_mem_cons.mpr ⟨.file, List.forall_mem_singleton.mpr hqtasks⟩)
    exact .directory (by decide) (List.forall_mem_singleton.mpr (by decide))
      (List.forall_mem_singleton.mpr hinside)
  workingDir := fun _ h => absurd h List.not_mem_nil

/-- The fragment is missed: the brackets mean a class of characters. -/
theorem fragments_not_always_listed :
    ¬ ∀ (files : Files) (path : Path), files.Proper → files.isFile path = true →
        ∀ found, found ∈ (findFragments files path).1 ↔
          ∃ dir ∈ fragmentDirs, ∃ name, IsFragmentName name ∧
            found = fragmentPath path dir name ∧ files.isFile found = true := by
  intro hall
  have hnone : findFragments bracketed (.ofString "a[b]/Quakefile") = ([], []) := by cbv
  have hfile : bracketed.isFile (.ofString "a[b]/Quakefile") = true := by cbv
  have hlisted := (hall bracketed _ bracketed_proper hfile (.ofString "a[b]/qtasks/x.quake")).mpr
    ⟨"qtasks", by decide, "x.quake", ⟨by decide, by decide⟩, by decide, by cbv⟩
  rw [hnone] at hlisted
  cases hlisted

end Search

end TaskRunner
