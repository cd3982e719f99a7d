import TaskRunner.Context
import TaskRunner.Expression.Value
import TaskRunner.Proofs.BracedExpressions

/-! # Chains of defaults

    Operands with bars between them are a chain of defaults: the value of the chain is the
    first value that is not empty.  The reader builds a tree that groups to the left, and the
    value of a tree is computed from its outermost bar, which is the last one; so
    `value_foldl_either` holds for any tree in front of the operands that still come, and says
    that this tree counts like one operand more.

    A text that is read as a single operand is a `Link` (`exists_link`), and what is put
    between two such texts, blanks, bars and blanks, makes the blanks of their links longer
    (`exists_links`).  So texts that are operands are a chain when they are joined, and
    **`first_default_counts`** tells its value, and what each operand is worth. -/

namespace TaskRunner

open Text

/-- The value of a variable, or else what the environment says; nothing if neither knows it. -/
def Context.worthOf (ctx : Context) (name : String) : String :=
  ((ctx.vars.get? name).or (ctx.environment.lookup name)).getD ""

theorem Context.getD_lookup (ctx : Context) (name : String) :
    (ctx.lookup name).getD "" = ctx.worthOf name := by
  rw [lookup, worthOf]
  cases ctx.vars.get? name <;> rfl

namespace Expression

/-! ## What an operand is worth -/

/-- The worth of an operand: a name and `env` with a name behind it are worth what the name is, all
other paths are worth nothing, and a string is worth its inside without the escapes. -/
def Operand.worth (ctx : Context) : Operand → String
  | path name [] => ctx.worthOf (String.ofList name)
  | path name [property] =>
    if name = "env".toList then ctx.worthOf (String.ofList property) else ""
  | path _ (_ :: _ :: _) => ""
  | string inside => String.ofList (unescape inside)

/-- An access to what is no name is worth nothing. -/
theorem value_access_access (lookup : Lookup) (object : Expression) (first second : String) :
    (Expression.access (.access object first) second).value lookup = "" :=
  rfl

theorem value_env (lookup : Lookup) (name property : String) :
    (Expression.access (.identifier name) property).value lookup
      = if name = "env" then (lookup property).getD "" else "" := by
  split
  · rename_i henv
    rw [henv]
    rfl
  · rename_i hother
    rw [value]
    intro henv
    cases henv
    exact hother rfl

/-- More properties behind two leave an access to an access. -/
theorem exists_access_access (object : Expression) (first second : Text) (more : List Text) :
    ∃ inner last before, (first :: second :: more).foldl
      (fun object property => .access object (String.ofList property)) object
        = .access (.access inner before) last := by
  induction more using List.reverseRecOn with
  | nil => exact ⟨object, _, _, rfl⟩
  | append_singleton more property ih =>
      obtain ⟨inner, last, before, htree⟩ := ih
      refine ⟨.access inner before, String.ofList property, last, ?_⟩
      rw [← List.cons_append, ← List.cons_append, List.foldl_concat, htree]

/-- **AN OPERAND IS WORTH** what its tree has as its value. -/
theorem value_tree (ctx : Context) (o : Operand) : o.tree.value ctx.lookup = o.worth ctx := by
  cases o with
  | string inside => rfl
  | path name properties =>
      match properties with
      | [] => exact ctx.getD_lookup _
      | [property] =>
          have henv : String.ofList name = "env" ↔ name = "env".toList := by
            rw [← String.toList_inj, String.toList_ofList]
          show (Expression.access (.identifier _) _).value _ = _
          rw [value_env, Operand.worth, ctx.getD_lookup]
          simp only [henv]
      | first :: second :: more =>
          obtain ⟨inner, last, before, htree⟩ :=
            exists_access_access (.identifier (String.ofList name)) first second more
          rw [Operand.tree, htree, value_access_access]
          rfl

/-! ## The value of a chain -/

/-- The first of some strings that is not empty, if there is one, and else the empty string. -/
def firstNonEmpty : List String → String
  | [] => ""
  | s :: rest => if s.isEmpty then firstNonEmpty rest else s

/-- **THE TREE SO FAR COUNTS LIKE ONE OPERAND MORE**, in front of those that still come. -/
theorem value_foldl_either (lookup : Lookup) (operands : List Expression) (left : Expression) :
    (operands.foldl .either left).value lookup
      = firstNonEmpty ((left :: operands).map (value lookup)) := by
  induction operands generalizing left with
  | nil =>
      show left.value lookup = if _ then "" else _
      split
      · rename_i hempty
        exact String.isEmpty_iff.mp hempty
      · rfl
  | cons operand operands ih =>
      rw [List.foldl_cons, ih, List.map_cons, List.map_cons, List.map_cons, firstNonEmpty,
        firstNonEmpty, value]
      cases hleft : (left.value lookup).isEmpty with
      | true =>
          rw [if_pos rfl, if_pos rfl]
          rfl
      | false =>
          rw [if_neg Bool.false_ne_true, if_neg Bool.false_ne_true, hleft,
            if_neg Bool.false_ne_true]

/-! ## Texts that are operands -/

/-- A text is read as an expression that is no alternative of two others. -/
structure ReadsAsOperand (s : Text) (e : Expression) : Prop where
  parse : parse s = .ok e
  single : ∀ left right, e ≠ .either left right

/-- A text that is read as an operand is one with its blanks. -/
theorem exists_link {s : Text} {e : Expression} (h : ReadsAsOperand s e) :
    ∃ link : Link, link.Fits ∧ link.text = s ∧ link.operand.tree = e := by
  obtain ⟨⟨first, more⟩, hchain, htext, htree⟩ := read_eq_ok_iff.mp (read_of_parse h.parse)
  rcases List.eq_nil_or_concat more with rfl | ⟨front, last, rfl⟩
  · exact ⟨first, hchain.first, (List.append_nil _).symm.trans htext, htree⟩
  · rw [Chain.tree, List.concat_eq_append, List.foldl_concat] at htree
    exact absurd htree.symm (h.single _ _)

/-- A text behind two bars, with the blanks on both sides of the bars. -/
structure Default where
  before : Text
  behind : Text
  operand : Text

namespace Default

/-- The bars with the blanks and the text behind them. -/
def text (d : Default) : Text := d.before ++ '|' :: '|' :: (d.behind ++ d.operand)

/-- On both sides of the bars stand only spaces, tabs and line ends. -/
structure Spaced (d : Default) : Prop where
  before : ∀ c ∈ d.before, isSpacing c = true
  behind : ∀ c ∈ d.behind, isSpacing c = true

end Default

/-- **OPERANDS BEHIND BARS ARE LINKS**: the blanks around bars are blanks of the operands. -/
theorem exists_links {defaults : List Default} (hspaced : ∀ d ∈ defaults, d.Spaced)
    {es : List Expression} (h : List.Forall₂ ReadsAsOperand (defaults.map Default.operand) es) :
    ∃ blanks links, (∀ c ∈ blanks, isSpacing c = true) ∧ (∀ link ∈ links, link.Fits) ∧
      defaults.flatMap Default.text = blanks ++ barred links ∧
      links.map (·.operand.tree) = es := by
  induction defaults generalizing es with
  | nil =>
      cases h
      exact ⟨[], [], List.forall_mem_nil _, List.forall_mem_nil _, rfl, rfl⟩
  | cons d defaults ih =>
      obtain ⟨hd, hdefaults⟩ := List.forall_mem_cons.mp hspaced
      cases h with
      | cons hfirst hmore =>
          obtain ⟨link, hlink, htext, htree⟩ := exists_link hfirst
          obtain ⟨blanks, links, hblanks, hlinks, hrest, hes⟩ := ih hdefaults hmore
          refine ⟨d.before, ⟨d.behind ++ link.before, link.operand, link.behind ++ blanks⟩ :: links,
            hd.before, List.forall_mem_cons.mpr ⟨⟨?_, hlink.operand, ?_⟩, hlinks⟩, ?_, ?_⟩
          · exact List.forall_mem_append.mpr ⟨hd.behind, hlink.before⟩
          · exact List.forall_mem_append.mpr ⟨hlink.behind, hblanks⟩
          · have htext : link.text = d.operand := htext
            rw [List.flatMap_cons, hrest, Default.text, ← htext]
            simp [barred, Link.text]
          · rw [List.map_cons, hes, htree]

/-- **THE FIRST DEFAULT THAT IS NOT EMPTY COUNTS**: any texts that are each read as an operand are
    an expression when they are joined by bars, with any blanks around the bars.  In every
    context the value of that expression is the first value of an operand that is not empty,
    and the empty string if there is none.  An operand is a name, a path or a string with
    blanks around it, and its value is what it is worth. -/
theorem first_default_counts {first : Text} {defaults : List Default} {e : Expression}
    {es : List Expression} (hspaced : ∀ d ∈ defaults, d.Spaced)
    (h : List.Forall₂ ReadsAsOperand (first :: defaults.map Default.operand) (e :: es)) :
    (∃ joined, parse (first ++ defaults.flatMap Default.text) = .ok joined ∧
      ∀ ctx : Context,
        joined.value ctx.lookup = firstNonEmpty ((e :: es).map (value ctx.lookup))) ∧
    List.Forall₂ (fun s e => ∃ link : Link, link.Fits ∧ link.text = s ∧
      ∀ ctx : Context, e.value ctx.lookup = link.operand.worth ctx)
      (first :: defaults.map Default.operand) (e :: es) := by
  constructor
  · cases h with
    | cons hfirst hmore =>
        obtain ⟨link, hlink, htext, htree⟩ := exists_link hfirst
        obtain ⟨blanks, links, hblanks, hlinks, hrest, hes⟩ := exists_links hspaced hmore
        let chain : Chain := ⟨⟨link.before, link.operand, link.behind ++ blanks⟩, links⟩
        have hbehind : ∀ c ∈ link.behind ++ blanks, isSpacing c = true :=
          List.forall_mem_append.mpr ⟨hlink.behind, hblanks⟩
        have hchain : chain.Fits := ⟨⟨hlink.before, hlink.operand, hbehind⟩, hlinks⟩
        have hwhole : chain.text = first ++ defaults.flatMap Default.text := by
          rw [hrest, ← htext]
          simp [chain, Chain.text, Link.text]
        refine ⟨chain.tree, ?_, fun ctx => ?_⟩
        · rw [parse, ← hwhole, read_text hchain]
        · rw [← hes, ← htree, ← value_foldl_either, List.foldl_map]
          rfl
  · refine h.imp fun s e hread => ?_
    obtain ⟨link, hlink, htext, rfl⟩ := exists_link hread
    exact ⟨link, hlink, htext, fun ctx => value_tree ctx _⟩

/-- Four defaults behind a name, with blanks of all kinds around the bars. -/
def fallingBack : List Default :=
  [⟨[], [' ', '\t'], "\"\"".toList⟩, ⟨['\n'], [], "other.HOME ".toList⟩,
    ⟨[' '], [' '], "env.HOME".toList⟩, ⟨[], [], "\"x\\ty\"".toList⟩]

/-- The name is a variable without a text, and the environment has a home. -/
def atHome : Context where
  workingDir := ⟨[]⟩
  vars := Bindings.empty.insert "name" ""
  environment := .ofStrings ["HOME=/root"]

/-- The name and the string are empty, the third operand is worth nothing, and the fourth is set in
the environment. -/
theorem home_counts : ∃ joined,
    parse "name|| \t\"\"\n||other.HOME  || env.HOME||\"x\\ty\"".toList = .ok joined ∧
      joined.value atHome.lookup = "/root" := by
  have hread : List.Forall₂ ReadsAsOperand ("name".toList :: fallingBack.map Default.operand)
      [.identifier "name", .literal "", .access (.identifier "other") "HOME",
        .access (.identifier "env") "HOME", .literal "x\ty"] :=
    .cons ⟨by cbv, nofun⟩ <| .cons ⟨by cbv, nofun⟩ <| .cons ⟨by cbv, nofun⟩ <|
      .cons ⟨by cbv, nofun⟩ <| .cons ⟨by cbv, nofun⟩ .nil
  have hspaced : ∀ d ∈ fallingBack, d.Spaced := by
    intro d hd
    have hall : fallingBack.all fun d => d.before.all isSpacing && d.behind.all isSpacing := by
      decide
    have hblanks := Bool.and_eq_true_iff.mp (List.all_eq_true.mp hall d hd)
    exact ⟨List.all_eq_true.mp hblanks.1, List.all_eq_true.mp hblanks.2⟩
  obtain ⟨⟨joined, hjoined, hvalue⟩, -⟩ := first_default_counts hspaced hread
  refine ⟨joined, hjoined, (hvalue _).trans ?_⟩
  cbv

end Expression

end TaskRunner
