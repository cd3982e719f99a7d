import Mathlib
import TaskRunner.Expression.Parser
import TaskRunner.Proofs.BlockGrammar

/-! # The grammar of expressions

    The texts that are expressions are told by a grammar that knows nothing of a reader.  An
    **`Operand`** is a path, which is a word and any number of words behind points, or a
    string in double quotes.  A **`Chain`** is one operand or more, with two bars between
    neighbours and blanks around each (`Link`).  Its tree groups to the left.

    A word is read to its end because something stops it: what stands behind an operand is a
    blank, a bar, or the end of the text, and none of them goes on with a word (`Stops`).  So
    the reader gives the tree of each operand and leaves what stands behind it
    (`operand_text`), and what it reads is an operand (`exists_operand`).  The operands
    behind a bar are taken one by one onto the tree that there is so far, so the lemmas on
    `alternatives` hold for any tree to the left.

    Hence **`expressions_exact`**: a text is read as an expression if and only if it is the
    text of a chain with that tree, there is never more than one such chain, and every other
    text is an invalid expression. -/

namespace TaskRunner

namespace Text

/-! ## Words and quoted spans -/

/-- Letters, digits and underscores, at least one. -/
def IsWord (w : Text) : Prop := w ≠ [] ∧ ∀ c ∈ w, isWordChar c = true

/-- A text does not go on with a word that stands in front of it, nor with a property behind it. -/
def Stops (r : Text) : Prop := ∀ c ∈ r.head?, isWordChar c = false ∧ c ≠ '.'

/-- A text does not begin with a character of a word. -/
def EndsWord (r : Text) : Prop := ∀ c ∈ r.head?, isWordChar c = false

theorem Stops.endsWord {r : Text} (h : Stops r) : EndsWord r := fun c hc => (h c hc).1

theorem endsWord_cons {c : Char} (h : isWordChar c = false) (s : Text) : EndsWord (c :: s) := by
  intro d hd
  obtain rfl := Option.some.inj hd
  exact h

theorem endsWord_point (s : Text) : EndsWord ('.' :: s) := endsWord_cons (by decide) s

/-- A word ends where the text does not go on with it. -/
theorem takeWhile_word {w r : Text} (hw : IsWord w) (hr : EndsWord r) :
    (w ++ r).takeWhile isWordChar = w := by
  rw [List.takeWhile_append_of_pos hw.2]
  cases r with
  | nil => rw [List.takeWhile_nil, List.append_nil]
  | cons c r => rw [List.takeWhile_cons_of_neg (by simp [hr c rfl]), List.append_nil]

theorem dropWhile_word {w r : Text} (hw : IsWord w) (hr : EndsWord r) :
    (w ++ r).dropWhile isWordChar = r := by
  rw [List.dropWhile_append_of_pos hw.2]
  cases r with
  | nil => rfl
  | cons c r => rw [List.dropWhile_cons_of_neg (by simp [hr c rfl])]

/-- What is taken from the start of a text is a word, if anything is. -/
theorem isWord_takeWhile {s : Text} (h : ¬ (s.takeWhile isWordChar).isEmpty = true) :
    IsWord (s.takeWhile isWordChar) :=
  ⟨fun hnil => h (List.isEmpty_iff.mpr hnil), fun _ hc => List.mem_takeWhile_imp hc⟩

theorem IsWord.not_isEmpty {w : Text} (h : IsWord w) : ¬ w.isEmpty = true :=
  fun hempty => h.1 (List.isEmpty_iff.mp hempty)

theorem IsWord.not_mem {w : Text} {c : Char} (h : IsWord w) (hc : isWordChar c = false) : c ∉ w :=
  fun hmem => Bool.eq_false_iff.mp hc (h.2 c hmem)

/-- A span is read up to the first mark that no backslash escapes. -/
theorem quotedSpan_eq_some_iff {mark : Char} (hmark : mark ≠ '\\') {s inside rest : Text} :
    quotedSpan mark s = some (inside, rest) ↔
      IsQuoted mark inside ∧ s = inside ++ mark :: rest := by
  constructor
  · intro h
    refine ⟨?_, append_of_quotedSpan h⟩
    fun_induction quotedSpan mark s generalizing inside with
    | case1 | case2 => cases h
    | case3 d s ih =>
        obtain ⟨span, hspan, heq⟩ := Option.map_eq_some_iff.mp h
        obtain ⟨rfl, rfl⟩ := Prod.mk.inj heq
        exact .escaped d (ih hspan)
    | case4 s hescape =>
        obtain ⟨rfl, -⟩ := Prod.mk.inj (Option.some.inj h)
        exact .nil
    | case5 c s hescape hclose ih =>
        obtain ⟨span, hspan, heq⟩ := Option.map_eq_some_iff.mp h
        obtain ⟨rfl, rfl⟩ := Prod.mk.inj heq
        exact .plain hescape hclose (ih hspan)
  · rintro ⟨hinside, rfl⟩
    induction hinside with
    | nil => rw [List.nil_append, quotedSpan.eq_def]; simp [hmark]
    | escaped c _ ih => rw [List.cons_append, List.cons_append, quotedSpan.eq_def]; simp [ih]
    | plain hescape hclose _ ih =>
        rw [List.cons_append, quotedSpan.eq_def]
        simp [hescape, hclose, ih]

end Text

open Text

namespace Expression

/-! ## The grammar -/

/-- An operand: a word with the properties behind it, or what stands between two double quotes. -/
inductive Operand
  | path (name : Text) (properties : List Text)
  | string (inside : Text)

namespace Operand

/-- An operand as it is written. -/
def text : Operand → Text
  | path name properties => name ++ properties.flatMap ('.' :: ·)
  | string inside => '"' :: (inside ++ ['"'])

/-- The names are words, and no double quote stands in a string without a backslash. -/
def Fits : Operand → Prop
  | path name properties => IsWord name ∧ ∀ property ∈ properties, IsWord property
  | string inside => IsQuoted '"' inside

/-- The expression that an operand is: accesses group to the left, and a string stands for its
inside without the escapes. -/
def tree : Operand → Expression
  | path name properties =>
    properties.foldl (fun object property => .access object (String.ofList property))
      (.identifier (String.ofList name))
  | string inside => .literal (String.ofList (unescape inside))

end Operand

/-- An operand with the blanks around it. -/
@[ext]
structure Link where
  before : Text
  operand : Operand
  behind : Text

namespace Link

/-- The operand as it is written, with its blanks. -/
def text (link : Link) : Text := link.before ++ (link.operand.text ++ link.behind)

/-- The operand fits, and around it are spaces, tabs and line ends. -/
structure Fits (link : Link) : Prop where
  before : ∀ c ∈ link.before, isSpacing c = true
  operand : link.operand.Fits
  behind : ∀ c ∈ link.behind, isSpacing c = true

end Link

/-- Links as they are written behind a first one. -/
def barred (more : List Link) : Text := more.flatMap fun link => '|' :: '|' :: link.text

/-- Links with two bars between neighbours: a first one, and any number of others. -/
@[ext]
structure Chain where
  first : Link
  more : List Link

namespace Chain

/-- The chain as it is written. -/
def text (chain : Chain) : Text := chain.first.text ++ barred chain.more

/-- Every link fits. -/
structure Fits (chain : Chain) : Prop where
  first : chain.first.Fits
  more : ∀ link ∈ chain.more, link.Fits

/-- The expression that a chain is: the bars group to the left. -/
def tree (chain : Chain) : Expression :=
  chain.more.foldl (fun left link => .either left link.operand.tree) chain.first.operand.tree

end Chain

/-! ## The reader goes through operands -/

theorem stops_spacing {c : Char} (hc : isSpacing c = true) (s : Text) : Stops (c :: s) := by
  intro d hd
  obtain rfl := Option.some.inj hd
  simp only [isSpacing, Bool.or_eq_true, beq_iff_eq] at hc
  rcases hc with ((rfl | rfl) | rfl) | rfl <;> decide

/-- What stands behind an operand of a chain stops it. -/
theorem stops_barred {blanks : Text} (h : ∀ c ∈ blanks, isSpacing c = true) (more : List Link) :
    Stops (blanks ++ barred more) := by
  cases blanks with
  | cons c blanks => exact stops_spacing (h c List.mem_cons_self) _
  | nil =>
      cases more with
      | nil => exact nofun
      | cons link more =>
          intro c hc
          obtain rfl := Option.some.inj hc
          decide

theorem endsWord_properties {r : Text} (hr : Stops r) (properties : List Text) :
    EndsWord (properties.flatMap ('.' :: ·) ++ r) := by
  cases properties with
  | nil => exact hr.endsWord
  | cons property properties => exact endsWord_point _

/-- **THE READER GOES THROUGH PROPERTIES**, and puts them on what stands in front of them. -/
theorem accesses_properties {properties : List Text} (h : ∀ property ∈ properties, IsWord property)
    {r : Text} (hr : Stops r) (object : Expression) :
    accesses object (properties.flatMap ('.' :: ·) ++ r)
      = .ok (properties.foldl (fun object property => .access object (String.ofList property))
          object, r) := by
  induction properties generalizing object with
  | nil =>
      rw [List.flatMap_nil, List.nil_append, List.foldl_nil]
      cases r with
      | nil => rw [accesses]
      | cons c r => rw [accesses, if_neg (hr c rfl).2]
  | cons property properties ih =>
      obtain ⟨hword, hwords⟩ := List.forall_mem_cons.mp h
      have hends : EndsWord (properties.flatMap ('.' :: ·) ++ r) :=
        endsWord_properties hr properties
      rw [List.flatMap_cons, List.append_assoc, List.cons_append, accesses, if_pos rfl,
        takeWhile_word hword hends, dropWhile_word hword hends, if_neg hword.not_isEmpty,
        List.foldl_cons]
      exact ih hwords _

/-- **THE READER GOES THROUGH AN OPERAND** and gives its tree. -/
theorem operand_text {o : Operand} (h : o.Fits) {r : Text} (hr : Stops r) :
    operand (o.text ++ r) = .ok (o.tree, r) := by
  cases o with
  | path name properties =>
      obtain ⟨hname, hproperties⟩ := h
      have hends : EndsWord (properties.flatMap ('.' :: ·) ++ r) :=
        endsWord_properties hr properties
      obtain ⟨c, more, rfl⟩ := List.exists_cons_of_ne_nil hname.1
      have hquote : c ≠ '"' := by
        rintro rfl
        exact absurd (hname.2 _ List.mem_cons_self) (by decide)
      have htake := takeWhile_word hname hends
      have hdrop := dropWhile_word hname hends
      rw [List.cons_append] at htake hdrop
      rw [Operand.text, List.append_assoc, List.cons_append, operand, if_neg hquote, htake, hdrop,
        if_neg hname.not_isEmpty, accesses_properties hproperties hr]
      rfl
  | string inside =>
      have hspan : quotedSpan '"' (inside ++ '"' :: r) = some (inside, r) :=
        (quotedSpan_eq_some_iff (by decide)).mpr ⟨h, rfl⟩
      rw [Operand.text, List.cons_append, List.append_assoc, List.singleton_append, operand,
        if_pos rfl, hspan]
      rfl

/-- An operand does not begin with a blank. -/
theorem skipSpacing_operand {o : Operand} (h : o.Fits) (s : Text) :
    skipSpacing (o.text ++ s) = o.text ++ s := by
  obtain ⟨c, more, htext, hc⟩ : ∃ c more, o.text = c :: more ∧ isSpacing c = false := by
    cases o with
    | path name properties =>
        obtain ⟨c, more, rfl⟩ := List.exists_cons_of_ne_nil h.1.1
        refine ⟨c, _, rfl, ?_⟩
        cases hc : isSpacing c with
        | false => rfl
        | true =>
            have hstops := stops_spacing hc [] c rfl
            rw [h.1.2 c List.mem_cons_self] at hstops
            cases hstops.1
    | string inside => exact ⟨'"', _, rfl, rfl⟩
  rw [htext, List.cons_append, skipSpacing, List.dropWhile_cons_of_neg (by simp [hc])]

/-- Blanks are skipped up to an operand. -/
theorem skipSpacing_link {link : Link} (h : link.Fits) (s : Text) :
    skipSpacing (link.text ++ s) = link.operand.text ++ (link.behind ++ s) := by
  rw [Link.text, List.append_assoc, List.append_assoc, skipSpacing,
    List.dropWhile_append_of_pos h.before]
  exact skipSpacing_operand h.operand _

/-- Blanks are skipped up to a bar, or to the end. -/
theorem skipSpacing_barred {blanks : Text} (h : ∀ c ∈ blanks, isSpacing c = true)
    (more : List Link) : skipSpacing (blanks ++ barred more) = barred more := by
  rw [skipSpacing, List.dropWhile_append_of_pos h]
  cases more with
  | nil => rfl
  | cons link more => rfl

/-- **THE READER GOES THROUGH LINKS** and puts them to the right of the tree so far. -/
theorem alternatives_barred {more : List Link} (h : ∀ link ∈ more, link.Fits) {blanks : Text}
    (hblanks : ∀ c ∈ blanks, isSpacing c = true) (left : Expression) :
    alternatives left (blanks ++ barred more)
      = .ok (more.foldl (fun left link => .either left link.operand.tree) left) := by
  induction more generalizing blanks left with
  | nil =>
      rw [alternatives.eq_def]
      split
      · rw [skipSpacing_barred hblanks]
        rfl
      · rename_i heat
        rw [skipSpacing_barred hblanks] at heat
        cases heat
  | cons link more ih =>
      obtain ⟨hlink, hmore⟩ := List.forall_mem_cons.mp h
      have hread : operand (skipSpacing (link.text ++ barred more))
          = .ok (link.operand.tree, link.behind ++ barred more) := by
        rw [skipSpacing_link hlink]
        exact operand_text hlink.operand (stops_barred hlink.behind more)
      have heaten : eat ['|', '|'] (skipSpacing (blanks ++ barred (link :: more)))
          = some (link.text ++ barred more) := by
        rw [skipSpacing_barred hblanks]
        exact eat_eq_some_iff.mpr rfl
      rw [alternatives.eq_def]
      split
      · rename_i heat
        cases heat.symm.trans heaten
      · rename_i rest heat
        obtain rfl := Option.some.inj (heat.symm.trans heaten)
        split
        · rename_i hfault
          cases hfault.symm.trans hread
        · rename_i right after hright
          obtain ⟨rfl, rfl⟩ := Prod.mk.inj (Except.ok.inj (hright.symm.trans hread))
          exact ih hmore hlink.behind _

theorem read_text {chain : Chain} (h : chain.Fits) : read chain.text = .ok chain.tree := by
  rw [read, Chain.text, skipSpacing_link h.first,
    operand_text h.first.operand (stops_barred h.first.behind _)]
  exact alternatives_barred h.more h.first.behind _

/-! ## A text has one chain -/

theorem word_unique {w w' r r' : Text} (hw : IsWord w) (hw' : IsWord w') (hr : EndsWord r)
    (hr' : EndsWord r') (h : w ++ r = w' ++ r') : w = w' ∧ r = r' := by
  constructor
  · rw [← takeWhile_word hw hr, h, takeWhile_word hw' hr']
  · rw [← dropWhile_word hw hr, h, dropWhile_word hw' hr']

theorem properties_unique {properties properties' : List Text}
    (hwords : ∀ property ∈ properties, IsWord property)
    (hwords' : ∀ property ∈ properties', IsWord property) {r r' : Text} (hr : Stops r)
    (hother : Stops r')
    (h : properties.flatMap ('.' :: ·) ++ r = properties'.flatMap ('.' :: ·) ++ r') :
    properties = properties' ∧ r = r' := by
  induction properties generalizing properties' with
  | nil =>
      cases properties' with
      | nil => exact ⟨rfl, h⟩
      | cons property' properties' =>
          obtain rfl : r = '.' :: _ := h
          exact absurd rfl (hr '.' rfl).2
  | cons property properties ih =>
      cases properties' with
      | nil =>
          obtain rfl : '.' :: _ = r' := h
          exact absurd rfl (hother '.' rfl).2
      | cons property' properties' =>
          obtain ⟨hfirst, hmore⟩ := List.forall_mem_cons.mp hwords
          obtain ⟨hfirst', hmore'⟩ := List.forall_mem_cons.mp hwords'
          rw [List.flatMap_cons, List.flatMap_cons, List.append_assoc, List.append_assoc] at h
          obtain ⟨rfl, htail⟩ := word_unique hfirst hfirst' (endsWord_properties hr properties)
            (endsWord_properties hother properties') (List.cons.inj h).2
          obtain ⟨rfl, rfl⟩ := ih hmore hmore' htail
          exact ⟨rfl, rfl⟩

/-- A path does not begin with a quote. -/
theorem path_ne_string {name : Text} (hname : IsWord name) (s t : Text) : name ++ s ≠ '"' :: t := by
  intro h
  obtain ⟨c, more, rfl⟩ := List.exists_cons_of_ne_nil hname.1
  obtain rfl : c = '"' := (List.cons.inj h).1
  exact absurd (hname.2 _ List.mem_cons_self) (by decide)

theorem operand_unique {o o' : Operand} (ho : o.Fits) (ho' : o'.Fits) {r r' : Text} (hr : Stops r)
    (hr' : Stops r') (h : o.text ++ r = o'.text ++ r') : o = o' ∧ r = r' := by
  cases o with
  | path name properties =>
      rw [Operand.text, List.append_assoc] at h
      cases o' with
      | path name' properties' =>
          rw [Operand.text, List.append_assoc] at h
          obtain ⟨rfl, htail⟩ := word_unique ho.1 ho'.1 (endsWord_properties hr properties)
            (endsWord_properties hr' properties') h
          obtain ⟨rfl, rfl⟩ := properties_unique ho.2 ho'.2 hr hr' htail
          exact ⟨rfl, rfl⟩
      | string inside' => exact absurd h (path_ne_string ho.1 _ _)
  | string inside =>
      cases o' with
      | path name' properties' =>
          rw [Operand.text, Operand.text, List.append_assoc] at h
          exact absurd h.symm (path_ne_string ho'.1 _ _)
      | string inside' =>
          simp only [Operand.text, List.cons_append, List.append_assoc, List.nil_append] at h
          have hspan : quotedSpan '"' (inside ++ '"' :: r) = some (inside, r) :=
            (quotedSpan_eq_some_iff (by decide)).mpr ⟨ho, rfl⟩
          have hspan' : quotedSpan '"' (inside ++ '"' :: r) = some (inside', r') :=
            (quotedSpan_eq_some_iff (by decide)).mpr ⟨ho', (List.cons.inj h).2⟩
          obtain ⟨rfl, rfl⟩ := Prod.mk.inj (Option.some.inj (hspan.symm.trans hspan'))
          exact ⟨rfl, rfl⟩

theorem blanks_unique {blanks blanks' : Text} (hblanks : ∀ c ∈ blanks, isSpacing c = true)
    (hblanks' : ∀ c ∈ blanks', isSpacing c = true) {more more' : List Link}
    (h : blanks ++ barred more = blanks' ++ barred more') :
    blanks = blanks' ∧ barred more = barred more' := by
  have hskip := congrArg skipSpacing h
  rw [skipSpacing_barred hblanks, skipSpacing_barred hblanks'] at hskip
  rw [hskip] at h
  exact ⟨List.append_cancel_right h, hskip⟩

theorem link_unique {link link' : Link} (hlink : link.Fits) (hlink' : link'.Fits)
    {more more' : List Link} (h : link.text ++ barred more = link'.text ++ barred more') :
    link = link' ∧ barred more = barred more' := by
  have hskip := congrArg skipSpacing h
  rw [skipSpacing_link hlink, skipSpacing_link hlink'] at hskip
  obtain ⟨hoperand, hrest⟩ := operand_unique hlink.operand hlink'.operand
    (stops_barred hlink.behind more) (stops_barred hlink'.behind more') hskip
  obtain ⟨hbehind, hmore⟩ := blanks_unique hlink.behind hlink'.behind hrest
  -- all that the links can differ in are the blanks in front, and these are what is left over
  rw [Link.text, Link.text, hoperand, hbehind, hmore] at h
  have hbefore := List.append_cancel_right (List.append_cancel_right h)
  exact ⟨Link.ext hbefore hoperand hbehind, hmore⟩

theorem barred_unique {more more' : List Link} (hmore : ∀ link ∈ more, link.Fits)
    (hmore' : ∀ link ∈ more', link.Fits) (h : barred more = barred more') : more = more' := by
  induction more generalizing more' with
  | nil =>
      cases more' with
      | nil => rfl
      | cons link' more' => cases h
  | cons link more ih =>
      cases more' with
      | nil => cases h
      | cons link' more' =>
          obtain ⟨hfirst, hothers⟩ := List.forall_mem_cons.mp hmore
          obtain ⟨hfirst', hothers'⟩ := List.forall_mem_cons.mp hmore'
          have htext : link.text ++ barred more = link'.text ++ barred more' :=
            (List.cons.inj (List.cons.inj h).2).2
          obtain ⟨rfl, hrest⟩ := link_unique hfirst hfirst' htext
          rw [ih hothers hothers' hrest]

/-- **A TEXT HAS ONE CHAIN**: no other chain is written in the same way. -/
theorem chain_unique {chain chain' : Chain} (h : chain.Fits) (h' : chain'.Fits)
    (htext : chain.text = chain'.text) : chain = chain' := by
  obtain ⟨hfirst, hmore⟩ := link_unique h.first h'.first htext
  exact Chain.ext hfirst (barred_unique h.more h'.more hmore)

/-! ## What the reader goes through are operands -/

theorem exists_properties {object e : Expression} {s r : Text}
    (h : accesses object s = .ok (e, r)) :
    ∃ properties : List Text, (∀ property ∈ properties, IsWord property) ∧
      s = properties.flatMap ('.' :: ·) ++ r ∧
      e = properties.foldl (fun object property => .access object (String.ofList property))
        object := by
  fun_induction accesses object s with
  | case1 object =>
      obtain ⟨rfl, rfl⟩ := Prod.mk.inj (Except.ok.inj h)
      exact ⟨[], List.forall_mem_nil _, rfl, rfl⟩
  | case2 => cases h
  | case3 object s hword ih =>
      obtain ⟨properties, hproperties, hdrop, htree⟩ := ih h
      refine ⟨s.takeWhile isWordChar :: properties, ?_, ?_, htree⟩
      · exact List.forall_mem_cons.mpr ⟨isWord_takeWhile hword, hproperties⟩
      · rw [List.flatMap_cons, List.append_assoc, ← hdrop, List.cons_append,
          List.takeWhile_append_dropWhile]
  | case4 object c s hpoint =>
      obtain ⟨rfl, rfl⟩ := Prod.mk.inj (Except.ok.inj h)
      exact ⟨[], List.forall_mem_nil _, rfl, rfl⟩

/-- **WHAT THE READER TAKES FOR AN OPERAND** is one. -/
theorem exists_operand {e : Expression} {s r : Text} (h : operand s = .ok (e, r)) :
    ∃ o : Operand, o.Fits ∧ s = o.text ++ r ∧ e = o.tree := by
  cases s with
  | nil => cases h
  | cons c s =>
      rw [operand] at h
      split at h
      · rename_i hquote
        split at h
        · rename_i inside rest hspan
          obtain ⟨rfl, rfl⟩ := Prod.mk.inj (Except.ok.inj h)
          obtain ⟨hinside, rfl⟩ := (quotedSpan_eq_some_iff (by decide)).mp hspan
          refine ⟨.string inside, hinside, ?_, rfl⟩
          rw [hquote, Operand.text, List.cons_append, List.append_assoc, List.singleton_append]
        · cases h
      · split at h
        · cases h
        · rename_i hword
          obtain ⟨properties, hproperties, hdrop, rfl⟩ := exists_properties h
          refine ⟨.path ((c :: s).takeWhile isWordChar) properties,
            ⟨isWord_takeWhile hword, hproperties⟩, ?_, rfl⟩
          rw [Operand.text, List.append_assoc, ← hdrop, List.takeWhile_append_dropWhile]

theorem isSpacing_of_takeWhile {s : Text} : ∀ c ∈ s.takeWhile isSpacing, isSpacing c = true :=
  fun _ hc => List.mem_takeWhile_imp hc

/-- **WHAT THE READER GOES THROUGH BEHIND AN OPERAND** are blanks, and links behind bars. -/
theorem exists_barred {left e : Expression} {s : Text} (h : alternatives left s = .ok e) :
    ∃ blanks more, (∀ c ∈ blanks, isSpacing c = true) ∧ (∀ link ∈ more, link.Fits) ∧
      s = blanks ++ barred more ∧
      e = more.foldl (fun left link => .either left link.operand.tree) left := by
  fun_induction alternatives left s with
  | case1 left s heat hend =>
      obtain rfl := Except.ok.inj h
      refine ⟨s, [], ?_, List.forall_mem_nil _, (List.append_nil s).symm, rfl⟩
      exact List.dropWhile_eq_nil_iff.mp (List.isEmpty_iff.mp hend)
  | case2 => cases h
  | case3 => cases h
  | case4 left s rest heat right after hright _ ih =>
      obtain ⟨behind, more, hbehind, hmore, rfl, rfl⟩ := ih h
      obtain ⟨o, ho, htext, rfl⟩ := exists_operand hright
      refine ⟨s.takeWhile isSpacing, ⟨rest.takeWhile isSpacing, o, behind⟩ :: more,
        isSpacing_of_takeWhile, ?_, ?_, rfl⟩
      · exact List.forall_mem_cons.mpr ⟨⟨isSpacing_of_takeWhile, ho, hbehind⟩, hmore⟩
      · have hrest : Link.text ⟨rest.takeWhile isSpacing, o, behind⟩ ++ barred more = rest := by
          rw [Link.text, List.append_assoc, List.append_assoc, ← htext]
          exact List.takeWhile_append_dropWhile
        calc s = s.takeWhile isSpacing ++ skipSpacing s := List.takeWhile_append_dropWhile.symm
          _ = s.takeWhile isSpacing ++ '|' :: '|' :: rest := by rw [eat_eq_some_iff.mp heat]; rfl
          _ = s.takeWhile isSpacing ++ '|' :: '|' :: (Link.text _ ++ barred more) := by rw [hrest]

theorem read_eq_ok_iff {s : Text} {e : Expression} :
    read s = .ok e ↔ ∃ chain : Chain, chain.Fits ∧ chain.text = s ∧ chain.tree = e := by
  constructor
  · intro h
    rw [read] at h
    split at h
    · cases h
    · rename_i hfirst
      obtain ⟨o, ho, htext, rfl⟩ := exists_operand hfirst
      obtain ⟨behind, more, hbehind, hmore, rfl, rfl⟩ := exists_barred h
      refine ⟨⟨⟨s.takeWhile isSpacing, o, behind⟩, more⟩,
        ⟨⟨isSpacing_of_takeWhile, ho, hbehind⟩, hmore⟩, ?_, rfl⟩
      rw [Chain.text, Link.text, List.append_assoc, List.append_assoc, ← htext]
      exact List.takeWhile_append_dropWhile
  · rintro ⟨chain, hchain, rfl, rfl⟩
    exact read_text hchain

/-! ## Whole texts -/

/-- **EXPRESSIONS ARE WHAT THE GRAMMAR SAYS**: a text is read as an expression if and only if it is
    the text of a chain that fits, with that tree; there is never a second such chain; and a
    text that is none is an invalid expression, which the error quotes without the blanks
    around it. -/
theorem expressions_exact (s : Text) :
    (∀ e, parse s = .ok e ↔ ∃ chain : Chain, chain.Fits ∧ chain.text = s ∧ chain.tree = e) ∧
    (∀ chain chain' : Chain, chain.Fits → chain.text = s → chain'.Fits → chain'.text = s →
      chain = chain') ∧
    ((¬ ∃ chain : Chain, chain.Fits ∧ chain.text = s) →
      ∃ fault place,
        parse s = .error (.invalidExpression (String.ofList (trim s)) fault place)) := by
  refine ⟨fun e => ?_, ?_, ?_⟩
  · rw [← read_eq_ok_iff, parse]
    cases read s with
    | ok e' => exact ⟨fun h => congrArg Except.ok (Except.ok.inj h), fun h => h ▸ rfl⟩
    | error fault => exact ⟨nofun, nofun⟩
  · rintro chain chain' hchain rfl hchain' htext
    exact chain_unique hchain hchain' htext.symm
  · intro hnone
    rw [parse]
    cases hread : read s with
    | ok e =>
        obtain ⟨chain, hchain, htext, -⟩ := read_eq_ok_iff.mp hread
        exact absurd ⟨chain, hchain, htext⟩ hnone
    | error fault => exact ⟨fault.1, fault.2, rfl⟩

/-- A property, or else a string with an escaped quote and two bars in it. -/
def hosting : Chain where
  first := ⟨[' '], .path "env".toList ["HOST".toList], []⟩
  more := [⟨['\t'], .string "a \\\" || b".toList, ['\n']⟩]

theorem hosting_fits : hosting.Fits := by
  have hspan : quotedSpan '"' ("a \\\" || b".toList ++ ['"'])
      = some ("a \\\" || b".toList, []) := by
    decide +kernel
  have hspace : ∀ c ∈ [' '], isSpacing c = true := List.forall_mem_singleton.mpr rfl
  have htab : ∀ c ∈ ['\t'], isSpacing c = true := List.forall_mem_singleton.mpr rfl
  have hfeed : ∀ c ∈ ['\n'], isSpacing c = true := List.forall_mem_singleton.mpr rfl
  have henv : IsWord "env".toList := ⟨by decide, List.all_eq_true.mp (by decide)⟩
  have hhost : IsWord "HOST".toList := ⟨by decide, List.all_eq_true.mp (by decide)⟩
  constructor
  · exact ⟨hspace, ⟨henv, List.forall_mem_singleton.mpr hhost⟩, nofun⟩
  · intro link hlink
    obtain rfl := List.mem_singleton.mp hlink
    exact ⟨htab, ((quotedSpan_eq_some_iff (by decide)).mp hspan).1, hfeed⟩

/-- The string ends behind its second bar, and a text of two words is no chain. -/
theorem hosting_is_expression :
    parse " env.HOST||\t\"a \\\" || b\"\n".toList
        = .ok (.either (.access (.identifier "env") "HOST") (.literal "a \" || b")) ∧
      (∀ chain : Chain, chain.Fits → chain.text = hosting.text → chain = hosting) ∧
      ∃ fault place, parse "a b".toList = .error (.invalidExpression "a b" fault place) := by
  refine ⟨?_, fun chain hchain htext => ?_, ?_⟩
  · exact ((expressions_exact _).1 _).mpr ⟨hosting, hosting_fits, by cbv, by cbv⟩
  · exact (expressions_exact _).2.1 chain hosting hchain htext hosting_fits rfl
  · refine (expressions_exact "a b".toList).2.2 ?_
    rintro ⟨chain, hchain, htext⟩
    have hparse := ((expressions_exact _).1 _).mpr ⟨chain, hchain, htext, rfl⟩
    have herror : parse "a b".toList
        = .error (.invalidExpression "a b" (.leftover "b") ['b']) := by
      cbv
    cases hparse.symm.trans herror

end Expression

end TaskRunner
