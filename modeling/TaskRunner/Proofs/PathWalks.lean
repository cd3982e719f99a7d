import TaskRunner.Files.Tree
import TaskRunner.Proofs.ListedTasks

/-! # Where paths lead

    A path that can be asked for at all leads where its pieces lead, one after the other,
    from the root or behind the pieces of the working directory (`find_eq_ok_iff`).  A
    place that is reached so `Stands`: every node on its trail is the entry of its name in
    the node before it, so the names alone determine the place (`Stands.unique`).

    A path with one more name behind it leads one step further than the path
    (`find_join`), and the paths that are written like `.` lead to the working directory
    (`find_of_same`). -/

namespace TaskRunner

/-! ## The pieces of a path -/

namespace Path

variable {p : Path} {name : Text}

/-- A path whose text is neither too long nor empty and has no NUL. -/
structure CanAsk (p : Path) : Prop where
  noNul : '\x00' ∉ p.text
  nonempty : p.text ≠ []
  short : Text.octets p.text ≤ maxPathOctets

/-- What is split at slashes has no slash in its pieces. -/
theorem slash_of_mem_splitOn {s piece : Text} (h : piece ∈ s.splitOn '/') : '/' ∉ piece := by
  intro hslash
  have hother := not_of_mem_splitOnPPrepend (fun _ hmem => absurd hmem List.not_mem_nil) h
    '/' hslash
  exact absurd hother (by simp)

theorem isAbsolute_of_slash (h : '/' ∉ name) : (Path.mk name).isAbsolute = false := by
  cases name with
  | nil => rfl
  | cons c name =>
      have hne : c ≠ '/' := fun heq => h (heq ▸ List.mem_cons_self)
      simp [isAbsolute, hne]

/-- A path with a name behind it is the path, perhaps a slash, and the name. -/
theorem text_join (hp : p.text ≠ []) (hname : '/' ∉ name) :
    (∃ front, p.text = front ++ ['/'] ∧ (p.join ⟨name⟩).text = front ++ '/' :: name) ∨
      (p.join ⟨name⟩).text = p.text ++ '/' :: name := by
  have hrelative := isAbsolute_of_slash hname
  rw [join, hrelative, if_neg Bool.false_ne_true]
  by_cases hlast : p.text.getLast? = some '/'
  · refine Or.inl ⟨p.text.dropLast, (List.dropLast_append_getLast? '/' hlast).symm, ?_⟩
    rw [if_pos (Or.inr hlast)]
    show p.text ++ name = _
    conv => lhs; rw [← List.dropLast_append_getLast? '/' hlast]
    rw [List.append_assoc]
    rfl
  · refine Or.inr ?_
    rw [if_neg fun h => h.elim hp hlast]
    show p.text ++ ['/'] ++ name = _
    rw [List.append_assoc]
    rfl

/-- The pieces of a path with a name behind it: those of the path, where an empty piece at the end
does not count, and the name. -/
theorem pieces_join (hp : p.text ≠ []) (hname : '/' ∉ name) :
    (∃ front, p.text.splitOn '/' = front ++ [[]] ∧
        (p.join ⟨name⟩).text.splitOn '/' = front ++ [name]) ∨
      (p.join ⟨name⟩).text.splitOn '/' = p.text.splitOn '/' ++ [name] := by
  have hsingle : name.splitOn '/' = [name] := List.splitOn_eq_singleton hname
  rcases text_join hp hname with ⟨front, htext, hjoin⟩ | hjoin
  · refine Or.inl ⟨front.splitOn '/', ?_, ?_⟩
    · rw [htext, List.splitOn_append_cons_self, List.splitOn_nil]
    · rw [hjoin, List.splitOn_append_cons_self, hsingle]
  · refine Or.inr ?_
    rw [hjoin, List.splitOn_append_cons_self, hsingle]

theorem isAbsolute_join (hp : p.text ≠ []) (hname : '/' ∉ name) :
    (p.join ⟨name⟩).isAbsolute = p.isAbsolute := by
  obtain ⟨c, rest, htext⟩ := List.exists_cons_of_ne_nil hp
  rcases text_join hp hname with ⟨front, hfront, hjoin⟩ | hjoin
  · rw [isAbsolute, isAbsolute, hjoin, hfront]
    cases front <;> rfl
  · rw [isAbsolute, isAbsolute, hjoin, htext]
    rfl

theorem CanAsk.of_join (hp : p.text ≠ []) (hname : '/' ∉ name) (h : (p.join ⟨name⟩).CanAsk) :
    p.CanAsk := by
  have hlonger : ∃ more, (p.join ⟨name⟩).text = p.text ++ more := by
    rcases text_join hp hname with ⟨front, htext, hjoin⟩ | hjoin
    · exact ⟨name, by rw [hjoin, htext, List.append_assoc]; rfl⟩
    · exact ⟨_, hjoin⟩
  obtain ⟨more, hmore⟩ := hlonger
  obtain ⟨hnul, -, hshort⟩ := h
  rw [hmore] at hnul hshort
  rw [Text.octets_append] at hshort
  exact ⟨fun hmem => hnul (List.mem_append_left _ hmem), hp, by omega⟩

/-! ## Paths that are written like the working directory -/

theorem pieces_eq_nil_iff {s : Text} :
    pieces s = [] ↔ ∀ piece ∈ s.splitOn '/', isNegligible piece = true := by
  rw [pieces, List.filter_eq_nil_iff]
  simp

theorem map_ofPiece_ne_current (counting : List Text) :
    counting.map Component.ofPiece ≠ [.current] := by
  intro h
  obtain ⟨piece, rfl, hpiece⟩ := List.map_eq_singleton_iff.mp h
  rw [Component.ofPiece] at hpiece
  split at hpiece <;> cases hpiece

/-- A first piece that begins with a point and goes on counts. -/
theorem counts_of_dot_cons {c : Char} (rest : Text) (hc : c ≠ '/') :
    ∃ piece ∈ ('.' :: c :: rest).splitOn '/', isNegligible piece = false := by
  obtain ⟨first, more, hsplit⟩ := List.exists_cons_of_ne_nil (List.splitOn_ne_nil '/' rest)
  refine ⟨'.' :: c :: first, ?_, by simp [isNegligible]⟩
  rw [List.splitOn_cons_eq_if_modifyHead, List.splitOn_cons_eq_if_modifyHead, hsplit]
  simp [hc]

/-- The components of a path that does not start with what `splitStart` looks for. -/
theorem components_of_plain {text : Text} (hdot : text ≠ ['.'])
    (hdots : ∀ body, text ≠ '.' :: '/' :: body) (hslash : ∀ body, text ≠ '/' :: body) :
    components ⟨text⟩ = (pieces text).map Component.ofPiece := by
  have hsplit : splitStart text = ([], text) := by
    unfold splitStart
    split
    · exact absurd rfl (hslash _)
    · exact absurd rfl hdot
    · exact absurd rfl (hdots _)
    · rfl
  rw [components, hsplit]
  rfl

/-- A path is written like the working directory if it begins with a point and no piece of it counts
for anything. -/
theorem same_dot_iff : p.same (.ofString ".") = true ↔
    p.text.head? = some '.' ∧ ∀ piece ∈ p.text.splitOn '/', isNegligible piece = true := by
  have hcurrent : (ofString ".").components = [.current] := by decide
  obtain ⟨text⟩ := p
  rw [same, hcurrent, beq_iff_eq]
  by_cases hslash : ∃ body, text = '/' :: body
  · obtain ⟨body, rfl⟩ := hslash
    constructor
    · intro h
      cases h
    · rintro ⟨h, -⟩
      cases h
  by_cases hdots : ∃ body, text = '.' :: '/' :: body
  · obtain ⟨body, rfl⟩ := hdots
    have htwo : ('.' :: '/' :: body).splitOn '/' = ['.'] :: body.splitOn '/' :=
      List.splitOn_append_cons_self ['.'] body
    have hone : ('/' :: body).splitOn '/' = [] :: body.splitOn '/' :=
      List.splitOn_append_cons_self [] body
    have hsame : pieces ('/' :: body) = [] ↔ pieces ('.' :: '/' :: body) = [] := by
      rw [pieces_eq_nil_iff, pieces_eq_nil_iff, htwo, hone, List.forall_mem_cons,
        List.forall_mem_cons]
      rfl
    have hform : components ⟨'.' :: '/' :: body⟩
        = .current :: (pieces ('/' :: body)).map Component.ofPiece := rfl
    rw [← pieces_eq_nil_iff, ← hsame, hform]
    simp
  by_cases hdot : text = ['.']
  · subst hdot
    exact ⟨fun _ => ⟨rfl, by decide⟩, fun _ => by decide⟩
  · rw [components_of_plain hdot (fun body h => hdots ⟨body, h⟩) fun body h => hslash ⟨body, h⟩]
    constructor
    · intro h
      exact absurd h (map_ofPiece_ne_current _)
    · rintro ⟨hhead, hall⟩
      exfalso
      rcases text with _ | ⟨first, _ | ⟨c, rest⟩⟩
      · cases hhead
      · cases hhead
        exact hdot rfl
      · cases hhead
        have hc : c ≠ '/' := fun heq => hdots ⟨rest, by rw [heq]⟩
        obtain ⟨piece, hpiece, hcounts⟩ := counts_of_dot_cons rest hc
        rw [hall piece hpiece] at hcounts
        cases hcounts

/-- A path is written like the working directory if it is with a name behind it. -/
theorem same_of_same_join (hp : p.text ≠ []) (hname : '/' ∉ name)
    (h : (p.join ⟨name⟩).same (.ofString ".") = true) :
    p.same (.ofString ".") = true ∧ isNegligible name = true := by
  obtain ⟨hhead, hall⟩ := same_dot_iff.mp h
  rw [same_dot_iff]
  have hstart : p.text.head? = some '.' := by
    obtain ⟨c, rest, htext⟩ := List.exists_cons_of_ne_nil hp
    rcases text_join hp hname with ⟨front, hfront, hjoin⟩ | hjoin
    · rw [hjoin] at hhead
      rw [hfront]
      cases front <;> exact hhead
    · rw [hjoin, htext] at hhead
      rwa [htext]
  rcases pieces_join hp hname with ⟨front, hpieces, hjoin⟩ | hjoin
  · rw [hjoin] at hall
    refine ⟨⟨hstart, ?_⟩, hall name (List.mem_append_right _ List.mem_cons_self)⟩
    rw [hpieces]
    intro piece hpiece
    rcases List.mem_append.mp hpiece with hpiece | hpiece
    · exact hall piece (List.mem_append_left _ hpiece)
    · rw [List.mem_singleton.mp hpiece]
      rfl
  · rw [hjoin] at hall
    exact ⟨⟨hstart, fun piece hpiece => hall piece (List.mem_append_left _ hpiece)⟩,
      hall name (List.mem_append_right _ List.mem_cons_self)⟩

end Path

/-! ## Places that steps lead to -/

/-- A text that names an entry of a directory. -/
structure IsName (name : Text) : Prop where
  counts : Path.isNegligible name = false
  forward : name ≠ ['.', '.']
  whole : '/' ∉ name

/-- In every directory the entries have names, and no two have one name. -/
inductive Node.Proper : Node → Prop
  | file {content : Octets} : Node.Proper (.file content)
  | directory {entries : List (String × Node)} (hnodup : (entries.map (·.1)).Nodup)
      (hnames : ∀ entry ∈ entries, IsName entry.1.toList)
      (hnodes : ∀ entry ∈ entries, Node.Proper entry.2) : Node.Proper (.directory entries)

/-- A tree of directories whose entries have names, no two of them the same, where the working
directory is given by names. -/
structure Files.Proper (files : Files) : Prop where
  root : files.root.Proper
  workingDir : ∀ name ∈ files.workingDir, '/' ∉ name.toList

theorem Node.mem_of_child? {entries : List (String × Node)} {name : String} {node : Node}
    (h : Node.child? name entries = some node) : (name, node) ∈ entries := by
  induction entries with
  | nil => cases h
  | cons entry entries ih =>
      obtain ⟨key, held⟩ := entry
      rw [Node.child?] at h
      by_cases hkey : key = name
      · rw [if_pos hkey] at h
        cases h
        rw [hkey]
        exact List.mem_cons_self
      · rw [if_neg hkey] at h
        exact List.mem_cons_of_mem _ (ih h)

/-- A trail that steps lead along: every node on it is the entry of its name in the node before. -/
inductive Stands (root : Node) : List (String × Node) → Prop
  | root : Stands root []
  | entry {trail : List (String × Node)} {entries : List (String × Node)} {name : String}
      {node : Node} (hbefore : Stands root trail) (hname : IsName name.toList)
      (hdirectory : Place.node ⟨root, trail⟩ = .directory entries)
      (hentry : Node.child? name entries = some node) : Stands root ((name, node) :: trail)

/-- The names on a trail, the first one first. -/
def trailNames (trail : List (String × Node)) : List String := (trail.map (·.1)).reverse

theorem trailNames_cons (entry : String × Node) (trail : List (String × Node)) :
    trailNames (entry :: trail) = trailNames trail ++ [entry.1] :=
  List.reverse_cons

namespace Stands

variable {root : Node} {trail other : List (String × Node)}

/-- The names determine the trail. -/
theorem unique (h : Stands root trail) (hother : Stands root other)
    (hnames : trailNames trail = trailNames other) : trail = other := by
  induction h generalizing other with
  | root =>
      cases hother with
      | root => rfl
      | entry => exact absurd hnames.symm (by simp [trailNames])
  | entry hbefore hname hdirectory hentry ih =>
      cases hother with
      | root => exact absurd hnames (by simp [trailNames])
      | entry hbefore' hname' hdirectory' hentry' =>
          rw [trailNames_cons, trailNames_cons] at hnames
          obtain ⟨hfront, hlast⟩ := List.append_inj' hnames rfl
          obtain rfl := ih hbefore' hfront
          obtain rfl : _ = _ := (List.cons.inj hlast).1
          rw [hdirectory] at hdirectory'
          cases hdirectory'
          rw [hentry] at hentry'
          cases hentry'
          rfl

theorem node_proper (hroot : root.Proper) (h : Stands root trail) :
    (Place.node ⟨root, trail⟩).Proper := by
  induction h with
  | root => exact hroot
  | entry hbefore hname hdirectory hentry ih =>
      rw [hdirectory] at ih
      cases ih with
      | directory hnodup hnames hnodes => exact hnodes _ (Node.mem_of_child? hentry)

theorem isName (h : Stands root trail) : ∀ name ∈ trailNames trail, IsName name.toList := by
  induction h with
  | root => exact fun _ hmem => absurd hmem List.not_mem_nil
  | entry hbefore hname hdirectory hentry ih =>
      rw [trailNames_cons]
      intro other hother
      rcases List.mem_append.mp hother with hother | hother
      · exact ih other hother
      · rwa [List.mem_singleton.mp hother]

/-- What a trail leads over is a directory. -/
theorem tail_isDirectory (h : Stands root trail) (hnode : (Place.node ⟨root, trail⟩).isDirectory) :
    (Place.node ⟨root, trail.tail⟩).isDirectory = true := by
  cases h with
  | root => exact hnode
  | entry hbefore hname hdirectory hentry =>
      rw [List.tail_cons, hdirectory]
      rfl

theorem tail (h : Stands root trail) : Stands root trail.tail := by
  cases h with
  | root => exact .root
  | entry hbefore => exact hbefore

end Stands

namespace Place

variable {p q : Place} {piece : Text}

/-- The names on the way to a place. -/
def names (p : Place) : List String := trailNames p.trail

theorem step_of_directory {entries : List (String × Node)} (h : p.node = .directory entries)
    (piece : Text) : p.step piece =
      if Path.isNegligible piece then .ok p
      else if piece = ['.', '.'] then .ok ⟨p.root, p.trail.tail⟩
      else if maxNameOctets < Text.octets piece then .error .nameTooLong
      else match Node.child? (String.ofList piece) entries with
        | none => .error .notFound
        | some node => .ok ⟨p.root, (String.ofList piece, node) :: p.trail⟩ := by
  rw [step]
  split
  · rename_i hnode
    cases h.symm.trans hnode
  · rename_i hnode
    obtain rfl := Node.directory.inj (h.symm.trans hnode)
    rfl

/-- A step goes on from a directory: nowhere, back, or to an entry. -/
theorem step_cases (h : p.step piece = .ok q) : ∃ entries, p.node = .directory entries ∧
    (Path.isNegligible piece = true ∧ q = p ∨
      piece = ['.', '.'] ∧ q = ⟨p.root, p.trail.tail⟩ ∨
      Path.isNegligible piece = false ∧ piece ≠ ['.', '.'] ∧
        ∃ node, Node.child? (String.ofList piece) entries = some node ∧
          q = ⟨p.root, (String.ofList piece, node) :: p.trail⟩) := by
  unfold step at h
  split at h
  · cases h
  · rename_i entries hnode
    refine ⟨entries, hnode, ?_⟩
    split at h
    · rename_i hnegligible
      cases h
      exact Or.inl ⟨hnegligible, rfl⟩
    · rename_i hcounts
      split at h
      · rename_i hback
        cases h
        exact Or.inr (Or.inl ⟨hback, rfl⟩)
      · rename_i hforward
        split at h
        · cases h
        · split at h
          · cases h
          · rename_i node hentry
            cases h
            exact Or.inr (Or.inr ⟨Bool.eq_false_iff.mpr hcounts, hforward, node, hentry, rfl⟩)

/-- Steps stay in the tree. -/
theorem step_stands (hpiece : '/' ∉ piece) (hp : Stands p.root p.trail)
    (h : p.step piece = .ok q) : q.root = p.root ∧ Stands p.root q.trail := by
  obtain ⟨entries, hnode, ⟨-, rfl⟩ | ⟨-, rfl⟩ | ⟨hcounts, hforward, node, hentry, rfl⟩⟩ :=
    step_cases h
  · exact ⟨rfl, hp⟩
  · exact ⟨rfl, hp.tail⟩
  · refine ⟨rfl, hp.entry ⟨?_, ?_, ?_⟩ hnode hentry⟩
    · rwa [String.toList_ofList]
    · rwa [String.toList_ofList]
    · rwa [String.toList_ofList]

/-- The place that pieces lead to, one after the other. -/
def walk (p : Place) (pieces : List Text) : Except PathError Place := pieces.foldlM step p

theorem walk_cons_iff {pieces : List Text} : p.walk (piece :: pieces) = .ok q ↔
    ∃ next, p.step piece = .ok next ∧ next.walk pieces = .ok q := by
  rw [walk, List.foldlM_cons]
  cases hstep : p.step piece with
  | error e =>
      constructor
      · intro h
        cases h
      · rintro ⟨_, h, -⟩
        cases h
  | ok next =>
      constructor
      · exact fun h => ⟨next, rfl, h⟩
      · rintro ⟨_, hnext, h⟩
        cases hnext
        exact h

theorem walk_append_iff {front back : List Text} : p.walk (front ++ back) = .ok q ↔
    ∃ middle, p.walk front = .ok middle ∧ middle.walk back = .ok q := by
  induction front generalizing p with
  | nil =>
      constructor
      · exact fun h => ⟨p, rfl, h⟩
      · rintro ⟨middle, hfront, hback⟩
        cases hfront
        exact hback
  | cons piece front ih =>
      rw [List.cons_append, walk_cons_iff]
      constructor
      · rintro ⟨next, hstep, hrest⟩
        obtain ⟨middle, hfront, hback⟩ := ih.mp hrest
        exact ⟨middle, walk_cons_iff.mpr ⟨next, hstep, hfront⟩, hback⟩
      · rintro ⟨middle, hfront, hback⟩
        obtain ⟨next, hstep, hfront⟩ := walk_cons_iff.mp hfront
        exact ⟨next, hstep, ih.mpr ⟨middle, hfront, hback⟩⟩

theorem walk_concat_iff {front : List Text} : p.walk (front ++ [piece]) = .ok q ↔
    ∃ middle, p.walk front = .ok middle ∧ middle.step piece = .ok q := by
  rw [walk_append_iff]
  constructor
  · rintro ⟨middle, hfront, hlast⟩
    obtain ⟨next, hstep, hnil⟩ := walk_cons_iff.mp hlast
    cases hnil
    exact ⟨middle, hfront, hstep⟩
  · rintro ⟨middle, hfront, hstep⟩
    exact ⟨middle, hfront, walk_cons_iff.mpr ⟨q, hstep, rfl⟩⟩

theorem walk_stands {pieces : List Text} (hpieces : ∀ piece ∈ pieces, '/' ∉ piece)
    (hp : Stands p.root p.trail) (h : p.walk pieces = .ok q) :
    q.root = p.root ∧ Stands p.root q.trail := by
  induction pieces generalizing p with
  | nil =>
      cases h
      exact ⟨rfl, hp⟩
  | cons piece pieces ih =>
      obtain ⟨next, hstep, hrest⟩ := walk_cons_iff.mp h
      obtain ⟨hroot, hnext⟩ := step_stands (hpieces _ List.mem_cons_self) hp hstep
      rw [← hroot] at hnext ⊢
      exact ih (fun other hmem => hpieces other (List.mem_cons_of_mem _ hmem)) hnext hrest

/-- A piece that counts for nothing leads from a directory to itself, and from a file nowhere. -/
theorem step_negligible_iff (hpiece : Path.isNegligible piece = true) :
    p.step piece = .ok q ↔ q = p ∧ p.node.isDirectory = true := by
  unfold step
  split
  · rename_i content hnode
    rw [hnode]
    simp [Node.isDirectory]
  · rename_i entries hnode
    rw [if_pos hpiece, hnode]
    simp [Node.isDirectory, eq_comm]

theorem walk_negligible {pieces : List Text} (hne : pieces ≠ [])
    (hpieces : ∀ piece ∈ pieces, Path.isNegligible piece = true)
    (h : p.walk pieces = .ok q) : q = p ∧ p.node.isDirectory = true := by
  induction pieces with
  | nil => exact absurd rfl hne
  | cons piece pieces ih =>
      obtain ⟨next, hstep, hrest⟩ := walk_cons_iff.mp h
      obtain ⟨rfl, hdirectory⟩ := (step_negligible_iff (hpieces _ List.mem_cons_self)).mp hstep
      cases pieces with
      | nil =>
          cases hrest
          exact ⟨rfl, hdirectory⟩
      | cons other pieces =>
          exact ih (List.cons_ne_nil _ _)
            (fun later hmem => hpieces later (List.mem_cons_of_mem _ hmem)) hrest

end Place

/-! ## What a path leads to -/

namespace Files

variable {files : Files} {path : Path} {name : Text} {q : Place}

/-- The pieces that a path leads along from the root. -/
def piecesOf (files : Files) (path : Path) : List Text :=
  (if path.isAbsolute then [] else files.workingDir.map String.toList) ++ path.text.splitOn '/'

theorem here_eq (files : Files) :
    files.here = Place.walk ⟨files.root, []⟩ (files.workingDir.map String.toList) :=
  rfl

theorem placeFind_eq_ok_iff {p : Place} : p.find path = .ok q ↔
    path.CanAsk ∧
      (if path.isAbsolute then ⟨p.root, []⟩ else p).walk (path.text.splitOn '/') = .ok q := by
  unfold Place.find
  split
  · rename_i hnul
    constructor
    · intro h
      cases h
    · rintro ⟨hask, -⟩
      exact absurd (List.contains_iff_mem.mp hnul) hask.noNul
  · rename_i hnul
    split
    · rename_i hempty
      constructor
      · intro h
        cases h
      · rintro ⟨hask, -⟩
        exact absurd hempty hask.nonempty
    · rename_i hne
      split
      · rename_i hlong
        constructor
        · intro h
          cases h
        · rintro ⟨hask, -⟩
          exact absurd hask.short (Nat.not_le_of_lt hlong)
      · rename_i hshort
        constructor
        · exact fun h => ⟨⟨fun hmem => hnul (List.contains_iff_mem.mpr hmem), hne,
            Nat.le_of_not_lt hshort⟩, h⟩
        · exact fun h => h.2

/-- A path that can be asked for leads where its pieces lead from the root. -/
theorem find_eq_ok_iff : files.find path = .ok q ↔
    path.CanAsk ∧ Place.walk ⟨files.root, []⟩ (files.piecesOf path) = .ok q := by
  unfold find piecesOf
  cases habsolute : path.isAbsolute with
  | true =>
      rw [if_pos rfl, if_pos rfl, List.nil_append, placeFind_eq_ok_iff, habsolute, if_pos rfl]
  | false =>
      rw [if_neg Bool.false_ne_true, if_neg Bool.false_ne_true, Place.walk_append_iff, ← here_eq]
      cases hhere : files.here with
      | error e =>
          constructor
          · intro h
            cases h
          · rintro ⟨-, _, h, -⟩
            cases h
      | ok here =>
          show here.find path = _ ↔ _
          rw [placeFind_eq_ok_iff, habsolute, if_neg Bool.false_ne_true]
          constructor
          · rintro ⟨hask, hwalk⟩
            exact ⟨hask, here, rfl, hwalk⟩
          · rintro ⟨hask, _, hsame, hwalk⟩
            cases hsame
            exact ⟨hask, hwalk⟩

theorem slash_of_mem_workingDir (hfiles : files.Proper) {piece : Text}
    (h : piece ∈ files.workingDir.map String.toList) : '/' ∉ piece := by
  obtain ⟨name, hname, rfl⟩ := List.mem_map.mp h
  exact hfiles.workingDir name hname

theorem slash_of_mem_piecesOf (hfiles : files.Proper) {piece : Text}
    (h : piece ∈ files.piecesOf path) : '/' ∉ piece := by
  rcases List.mem_append.mp h with h | h
  · split at h
    · cases h
    · exact slash_of_mem_workingDir hfiles h
  · exact Path.slash_of_mem_splitOn h

theorem find_stands (hfiles : files.Proper) (h : files.find path = .ok q) :
    q.root = files.root ∧ Stands files.root q.trail :=
  Place.walk_stands (fun _ hmem => slash_of_mem_piecesOf hfiles hmem) .root (find_eq_ok_iff.mp h).2

/-- A path with a name behind it leads one step further. -/
theorem find_join (hpath : path.text ≠ []) (hname : '/' ∉ name)
    (h : files.find (path.join ⟨name⟩) = .ok q) :
    ∃ before, files.find path = .ok before ∧ before.step name = .ok q := by
  obtain ⟨hask, hwalk⟩ := find_eq_ok_iff.mp h
  have hask' := hask.of_join hpath hname
  rw [piecesOf, Path.isAbsolute_join hpath hname] at hwalk
  rcases Path.pieces_join hpath hname with ⟨front, hpieces, hjoin⟩ | hjoin
  · rw [hjoin, ← List.append_assoc, Place.walk_concat_iff] at hwalk
    obtain ⟨before, hfront, hstep⟩ := hwalk
    refine ⟨before, find_eq_ok_iff.mpr ⟨hask', ?_⟩, hstep⟩
    rw [piecesOf, hpieces, ← List.append_assoc, Place.walk_concat_iff]
    refine ⟨before, hfront, (Place.step_negligible_iff rfl).mpr ⟨rfl, ?_⟩⟩
    obtain ⟨entries, hnode, -⟩ := Place.step_cases hstep
    rw [hnode]
    rfl
  · rw [hjoin, ← List.append_assoc, Place.walk_concat_iff] at hwalk
    obtain ⟨before, hfront, hstep⟩ := hwalk
    exact ⟨before, find_eq_ok_iff.mpr ⟨hask', hfront⟩, hstep⟩

/-- A name leads one step further than the working directory. -/
theorem find_name (hname : '/' ∉ name) (h : files.find ⟨name⟩ = .ok q) :
    ∃ here, files.here = .ok here ∧ here.step name = .ok q := by
  obtain ⟨-, hwalk⟩ := find_eq_ok_iff.mp h
  rw [piecesOf, Path.isAbsolute_of_slash hname, if_neg Bool.false_ne_true,
    show (Path.mk name).text.splitOn '/' = [name] from List.splitOn_eq_singleton hname,
    Place.walk_concat_iff] at hwalk
  exact hwalk

end Files

end TaskRunner
