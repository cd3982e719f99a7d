import TaskRunner.Proofs.CommandSpelling
import TaskRunner.Proofs.ScanLocality

/-! # Another text on a command line

    Cutting a line may come to a place in it, through pieces that end there (**`Cutting`**).
    What stands behind the place can then be exchanged for another text, and **the line is cut
    through the same pieces up to the place** (`Cutting.exchange`), if nothing in front goes
    on with the other text or is closed by it (`Exchangeable`): no word, no braces and no
    span in backticks.  Plain characters may go on with it, since texts are joined in the end.

    So a reference on a line may be written in braces or inside of double quotes, unless a
    brace of the line behind the reference makes two with its own and closes two that are
    open in front (`exchangeable_bracedReference`, `exchangeable_quotedReference`). -/

namespace TaskRunner

open Text

namespace Text

variable {n n' : Text}

/-! ## Runs in front of a text that is exchanged -/

/-- Where the first character stops it, nothing is taken. -/
theorem takeWhile_of_stop {p : Char → Bool} {r : Text} (h : ∀ c ∈ r.head?, p c = false) :
    r.takeWhile p = [] ∧ r.dropWhile p = r := by
  cases r with
  | nil => exact ⟨rfl, rfl⟩
  | cons c r =>
      have hc : ¬ p c = true := by simp [h c rfl]
      exact ⟨List.takeWhile_cons_of_neg hc, List.dropWhile_cons_of_neg hc⟩

/-- A run that ends where a text begins is what stands in front of the text. -/
theorem takeWhile_of_dropWhile {p : Char → Bool} {b r : Text} (h : (b ++ r).dropWhile p = r) :
    (b ++ r).takeWhile p = b := by
  have heq := List.takeWhile_append_dropWhile (p := p) (l := b ++ r)
  rw [h] at heq
  exact List.append_cancel_right heq

/-- What is dropped in front of a rest has only characters that are dropped. -/
theorem all_of_dropWhile {p : Char → Bool} {b r : Text} (h : (b ++ r).dropWhile p = r) :
    ∀ c ∈ b, p c = true :=
  fun _ hc => List.mem_takeWhile_imp ((takeWhile_of_dropWhile h).symm ▸ hc)

/-- A run that ends in front of a text ends there when the text is exchanged for one that does not
go on with it. -/
theorem span_exchange {p : Char → Bool} {b w : Text} (h : (b ++ n).dropWhile p = w ++ n)
    (hn' : ∀ c ∈ n'.head?, p c = false) :
    (b ++ n').takeWhile p = (b ++ n).takeWhile p ∧ (b ++ n').dropWhile p = w ++ n' := by
  cases w with
  | cons d w =>
      exact ⟨takeWhile_exchange h (List.cons_ne_nil _ _) n',
        dropWhile_exchange h (List.cons_ne_nil _ _) n'⟩
  | nil =>
      have hall := all_of_dropWhile h
      rw [takeWhile_of_dropWhile h, List.takeWhile_append_of_pos hall,
        List.dropWhile_append_of_pos hall, (takeWhile_of_stop hn').1, (takeWhile_of_stop hn').2,
        List.append_nil]
      exact ⟨rfl, rfl⟩

/-- A character of a word is none of others. -/
theorem not_mem_of_isWordChar {c : Char} (h : isWordChar c = true) {others : Text}
    (hothers : others.all (!isWordChar ·) = true) : c ∉ others := by
  intro hmem
  have hc := List.all_eq_true.mp hothers c hmem
  rw [h] at hc
  cases hc

/-- Nothing is taken just where the first character stops it. -/
theorem takeWhile_isEmpty_iff {p : Char → Bool} {s : Text} :
    (s.takeWhile p).isEmpty = true ↔ ∀ c ∈ s.head?, p c = false := by
  cases s with
  | nil => exact ⟨fun _ => nofun, fun _ => rfl⟩
  | cons c s =>
      rw [List.takeWhile_cons]
      cases hc : p c with
      | true => simp [hc]
      | false => simp [hc]

/-- A text that is longer than its end begins in front of it. -/
theorem exists_of_append_eq_cons {b r s : Text} {c : Char} (h : b ++ r = c :: s) (hr : r <:+ s) :
    ∃ b', b = c :: b' ∧ s = b' ++ r := by
  cases b with
  | nil =>
      have hlength := hr.length_le
      rw [← List.nil_append r, h, List.length_cons] at hlength
      omega
  | cons d b' =>
      obtain ⟨rfl, rfl⟩ := List.cons.inj h
      exact ⟨b', rfl, rfl⟩

/-- A pair of one character is not split by a text without it. -/
theorem pair_infix_of_append {x : Char} {front t : Text} (hfront : x ∉ front)
    (h : [x, x] <:+: front ++ t) : [x, x] <:+: t := by
  induction front with
  | nil => exact h
  | cons c front ih =>
      rw [List.mem_cons, not_or] at hfront
      obtain hstart | hrest := List.infix_cons_iff.mp h
      · exact absurd (List.cons_prefix_cons.mp hstart).1 hfront.1
      · exact ih hfront.2 hrest

/-- Two equal characters in a row are on one side of a text that has no such character. -/
theorem pair_infix_or {x : Char} {s front t : Text} (hfront : x ∉ front) (hne : front ≠ [])
    (h : [x, x] <:+: s ++ (front ++ t)) : [x, x] <:+: s ∨ [x, x] <:+: t := by
  induction s with
  | nil => exact .inr (pair_infix_of_append hfront h)
  | cons c s ih =>
      obtain hstart | hrest := List.infix_cons_iff.mp h
      · obtain ⟨rfl, hnext⟩ := List.cons_prefix_cons.mp hstart
        cases s with
        | nil =>
            obtain ⟨d, front, rfl⟩ := List.exists_cons_of_ne_nil hne
            exact absurd ((List.cons_prefix_cons.mp hnext).1 ▸ List.mem_cons_self) hfront
        | cons d s =>
            obtain ⟨rfl, -⟩ := List.cons_prefix_cons.mp hnext
            exact .inl (List.prefix_append [x, x] s).isInfix
      · exact (ih hrest).imp_left List.infix_cons

/-! ## References -/

/-- The reference to a name, written with braces. -/
def bracedReference (name : Text) : Text := '$' :: '{' :: (name ++ ['}'])

/-- The reference to a name inside of double quotes. -/
def quotedReference (name : Text) : Text := '"' :: '$' :: (name ++ ['"'])

/-- Two braces open in a text that do not close in it. -/
def OpensBraces (s : Text) : Prop := ∃ b, '{' :: '{' :: b <:+ s ∧ ¬ ['}', '}'] <:+: b

end Text

namespace Element

/-! ## Joined texts -/

/-- Elements that join alike do so behind another one. -/
theorem joinTexts_cons_congr {es es' : List Element} (h : joinTexts es = joinTexts es')
    (e : Element) : joinTexts (e :: es) = joinTexts (e :: es') := by
  cases e with
  | text value => rw [joinTexts, joinTexts, h]
  | «variable» name | backtick command | expression e => exact congrArg (_ :: ·) h

/-- A text element is what its characters make. -/
theorem text_eq_ofText (value : String) : .text value = ofText value.toList := by
  rw [ofText, String.ofList_toList]

/-- Two texts next to each other are one. -/
theorem joinTexts_ofText_ofText (s t : Text) (es : List Element) :
    joinTexts (ofText s :: ofText t :: es) = joinTexts (ofText (s ++ t) :: es) := by
  simp only [ofText, joinTexts, String.ofList_append]
  cases hes : joinTexts es with
  | nil => rfl
  | cons e others =>
      cases e with
      | text more => simp only [String.append_assoc]
      | «variable» name | backtick command | expression e => rfl

/-- A plain character is taken with all plain ones behind it. -/
theorem next_of_plain {c : Char} (h : isPlain c = true) (rest : Text) :
    next c rest = (ofText (c :: rest.takeWhile isPlain), rest.dropWhile isPlain) := by
  fun_cases next c rest with
  | case8 => rfl
  | case1 hc | case2 hc | case3 _ hc | case4 _ _ hc | case5 _ _ hc | case6 _ _ _ hc
  | case7 _ _ _ hc =>
      subst hc
      cases h

/-- A single brace stands for itself. -/
theorem next_of_brace {rest : Text} (h : rest.head? ≠ some '{') :
    next '{' rest = (ofText ['{'], rest) := by
  rw [next.eq_def, if_pos rfl]
  split
  · exact absurd rfl h
  · rfl

/-- A text takes the plain characters behind it. -/
theorem joinTexts_ofText_plain (s r : Text) :
    joinTexts (ofText (s ++ r.takeWhile isPlain) :: pieces (r.dropWhile isPlain))
      = joinTexts (ofText s :: pieces r) := by
  cases r with
  | nil => rw [List.takeWhile_nil, List.dropWhile_nil, List.append_nil]
  | cons c r =>
      by_cases hc : isPlain c = true
      · rw [pieces, next_of_plain hc, joinTexts_ofText_ofText, List.takeWhile_cons_of_pos hc,
          List.dropWhile_cons_of_pos hc]
      · rw [List.takeWhile_cons_of_neg hc, List.dropWhile_cons_of_neg hc, List.append_nil]

/-! ## Cutting up to a place -/

/-- What is left behind an element is an end of the text. -/
theorem next_suffix (c : Char) (rest : Text) : (next c rest).2 <:+ rest := by
  obtain ⟨s, -, hs⟩ := next_spells c rest
  obtain hwhole | hsuffix := List.suffix_cons_iff.mp ⟨s, hs.symm⟩
  · have hlength := length_next_le c rest
    rw [hwhole, List.length_cons] at hlength
    omega
  · exact hsuffix

/-- Cutting a line comes to a later text: whole pieces lead there. -/
inductive Cutting : Text → List Element → Text → Prop
  | here (s : Text) : Cutting s [] s
  | piece {c : Char} {rest r : Text} {es : List Element} :
      Cutting (next c rest).2 es r → Cutting (c :: rest) ((next c rest).1 :: es) r

namespace Cutting

variable {s r r' : Text} {es : List Element}

/-- A cutting ends at an end of the text. -/
theorem suffix (h : Cutting s es r) : r <:+ s := by
  induction h with
  | here s => exact List.suffix_rfl
  | @piece c rest r es _ ih => exact (ih.trans (next_suffix c rest)).trans (List.suffix_cons c rest)

/-- Pieces take up something. -/
theorem eq_nil (h : Cutting r es r) : es = [] := by
  cases h with
  | here => rfl
  | @piece c rest r es h =>
      have hlength := (h.suffix.trans (next_suffix c rest)).length_le
      rw [List.length_cons] at hlength
      omega

/-- The elements that are cut off spell what was cut off. -/
theorem spelled (h : Cutting (s ++ r) es r) : Spelled es s := by
  generalize ht : s ++ r = t at h
  induction h generalizing s with
  | here t =>
      obtain rfl : s = [] := List.append_left_eq_self.mp ht
      exact .nil
  | @piece c rest r es h ih =>
      obtain ⟨t, hspells, heq⟩ := next_spells c rest
      obtain ⟨w, hw⟩ := h.suffix
      obtain rfl : s = t ++ w := by
        rw [heq, ← hw, ← List.append_assoc] at ht
        exact List.append_cancel_right ht
      exact .cons hspells (ih hw)

end Cutting

/-! ## Another text at the place -/

/-- A text may stand where cutting comes to another one: nothing that begins in front of it goes on
with it or is closed by it, unless the other text closes it as well. -/
structure Exchangeable (before r r' : Text) : Prop where
  word : EndsWord r'
  brace : r'.head? ≠ some '{'
  tick : '`' ∈ r' → '`' ∈ r
  closing : ∀ b, '{' :: '{' :: b <:+ before → ['}', '}'] <:+: b ++ r' → ['}', '}'] <:+: b ++ r

/-- What may be exchanged behind a text may be exchanged behind an end of it. -/
theorem Exchangeable.mono {before before' r r' : Text} (h : Exchangeable before r r')
    (hsuffix : before' <:+ before) : Exchangeable before' r r' :=
  ⟨h.word, h.brace, h.tick, fun b hb => h.closing b (hb.trans hsuffix)⟩

/-- **THE SAME PIECE IS CUT IN FRONT OF ANOTHER TEXT**, but for a plain one that goes on with it. -/
theorem next_exchange {c : Char} {b w r r' : Text} (h : (next c (b ++ r)).2 = w ++ r)
    (hr' : Exchangeable (c :: b) r r') :
    next c (b ++ r') = ((next c (b ++ r)).1, w ++ r')
      ∨ isPlain c = true ∧ w = [] ∧ ∀ d ∈ b, isPlain d = true := by
  revert h
  generalize hs : b ++ r = s
  fun_cases next c s with
  | case1 hc inner inside after hspan =>
      rintro rfl
      obtain ⟨b, rfl, rfl⟩ := exists_of_append_eq_cons hs
        ((List.suffix_append w r).trans (suffix_of_upThrough hspan))
      subst hc
      left
      rw [List.cons_append, next, if_pos rfl]
      simp only [upThrough_exchange (by decide) hspan r']
  | case2 hc inner hspan =>
      rintro rfl
      obtain ⟨b, rfl, hb⟩ := exists_of_append_eq_cons hs (List.suffix_append w r)
      obtain rfl := List.append_cancel_right hb
      subst hc
      have hnone : upThrough ['}', '}'] (w ++ r') = none :=
        upThrough_eq_none_iff.mpr fun hclosed => upThrough_eq_none_iff.mp hspan
          (hr'.closing w List.suffix_rfl hclosed)
      left
      rw [List.cons_append, next, if_pos rfl]
      simp only [hnone]
  | case3 s hc hbrace =>
      intro hw
      obtain rfl := List.append_cancel_right (hs.trans hw)
      subst hc
      have hhead : (b ++ r').head? ≠ some '{' := by
        cases b with
        | nil => exact hr'.brace
        | cons d b =>
            intro hd
            obtain rfl := Option.some.inj hd
            exact hbrace _ hs.symm
      exact .inl (next_of_brace hhead)
  | case4 s hbrace hc inside after hspan =>
      rintro rfl
      subst hs hc
      left
      rw [next.eq_def, if_neg hbrace, if_pos rfl]
      simp only [upThrough_exchange (by decide) hspan r']
  | case5 s hbrace hc hspan =>
      intro hw
      obtain rfl := List.append_cancel_right (hs.trans hw)
      subst hs hc
      have hnone : upThrough ['`'] (b ++ r') = none := by
        refine upThrough_eq_none_iff.mpr fun htick => upThrough_eq_none_iff.mp hspan ?_
        rw [List.singleton_infix_iff, List.mem_append] at htick ⊢
        exact htick.imp_right hr'.tick
      left
      rw [next.eq_def, if_neg hbrace, if_pos rfl]
      simp only [hnone]
  | case6 s hbrace htick hc hname =>
      intro hw
      obtain rfl := List.append_cancel_right (hs.trans hw)
      subst hs hc
      have hname' : ((b ++ r').takeWhile isWordChar).isEmpty = true := by
        rw [takeWhile_isEmpty_iff] at hname ⊢
        cases b with
        | nil => exact hr'.word
        | cons d b => exact hname
      left
      rw [next.eq_def, if_neg hbrace, if_neg htick, if_pos rfl, if_pos hname']
  | case7 s hbrace htick hc hname =>
      intro hw
      subst hs hc
      obtain ⟨htake, hdrop⟩ := span_exchange hw hr'.word
      left
      rw [next.eq_def, if_neg hbrace, if_neg htick, if_pos rfl, htake, hdrop, if_neg hname]
  | case8 s hbrace htick hdollar =>
      intro hw
      subst hs
      have hc : isPlain c = true := by simp [isPlain, hbrace, htick, hdollar]
      cases w with
      | nil => exact .inr ⟨hc, rfl, all_of_dropWhile hw⟩
      | cons d w =>
          left
          rw [next_of_plain hc, takeWhile_exchange hw (List.cons_ne_nil _ _),
            dropWhile_exchange hw (List.cons_ne_nil _ _)]

namespace Cutting

variable {s r r' : Text} {es : List Element}

/-- **CUTTING COMES TO A TEXT** through the same pieces as to the one that it is exchanged for. -/
theorem exchange (h : Cutting (s ++ r) es r) (hr' : Exchangeable s r r') :
    joinTexts (pieces (s ++ r')) = joinTexts (es ++ pieces r') := by
  generalize ht : s ++ r = t at h
  induction h generalizing s with
  | here t =>
      obtain rfl : s = [] := List.append_left_eq_self.mp ht
      rfl
  | @piece c rest r es h ih =>
      obtain ⟨w, hw⟩ := h.suffix
      obtain ⟨b, rfl, rfl⟩ := exists_of_append_eq_cons ht (h.suffix.trans (next_suffix c rest))
      obtain ⟨front, hfront⟩ := next_suffix c (b ++ r)
      rw [← hw, ← List.append_assoc] at hfront
      have hwb : w <:+ c :: b :=
        .trans ⟨front, List.append_cancel_right hfront⟩ (List.suffix_cons c b)
      rw [List.cons_append, pieces]
      obtain hnext | ⟨hc, rfl, hb⟩ := next_exchange hw.symm hr'
      · rw [hnext]
        exact joinTexts_cons_congr (ih (hr'.mono hwb) hw) _
      · -- the text in front goes on with the plain characters of the other one
        rw [← hw, List.nil_append] at h
        obtain rfl := h.eq_nil
        rw [next_of_plain hc] at hw ⊢
        rw [next_of_plain hc, takeWhile_of_dropWhile hw.symm, List.takeWhile_append_of_pos hb,
          List.dropWhile_append_of_pos hb]
        exact joinTexts_ofText_plain (c :: b) r'

end Cutting

/-! ## References on a line -/

/-- Elements that join alike do so behind any others. -/
theorem joinTexts_append_congr {fs fs' : List Element} (h : joinTexts fs = joinTexts fs')
    (es : List Element) : joinTexts (es ++ fs) = joinTexts (es ++ fs') := by
  induction es with
  | nil => exact h
  | cons e es ih => exact joinTexts_cons_congr ih e

/-- Plain characters are one text, with what they are joined to. -/
theorem joinTexts_pieces_plain {s : Text} (hne : s ≠ []) (hs : ∀ c ∈ s, isPlain c = true)
    (r : Text) : joinTexts (pieces (s ++ r)) = joinTexts (ofText s :: pieces r) := by
  obtain ⟨c, s, rfl⟩ := List.exists_cons_of_ne_nil hne
  obtain ⟨hc, hs⟩ := List.forall_mem_cons.mp hs
  rw [List.cons_append, pieces, next_of_plain hc, List.takeWhile_append_of_pos hs,
    List.dropWhile_append_of_pos hs]
  exact joinTexts_ofText_plain (c :: s) r

/-- The characters of words are plain. -/
theorem isPlain_of_isWordChar {c : Char} (h : isWordChar c = true) : isPlain c = true := by
  have hc : c ∉ ['{', '`', '$'] := not_mem_of_isWordChar h (by decide)
  simpa [isPlain, and_assoc] using hc

/-- A reference is one element, if its name ends. -/
theorem pieces_reference {name r : Text} (hname : IsWord name) (hr : EndsWord r) :
    pieces ('$' :: (name ++ r)) = .variable (String.ofList name) :: pieces r := by
  rw [pieces, next.eq_def, if_neg (by decide), if_neg (by decide), if_pos rfl,
    takeWhile_word hname hr, dropWhile_word hname hr, if_neg hname.not_isEmpty]

/-- A reference in braces is a text. -/
theorem joinTexts_bracedReference {name : Text} (hname : IsWord name) (r : Text) :
    joinTexts (pieces (bracedReference name ++ r))
      = joinTexts (ofText (bracedReference name) :: pieces r) := by
  have hdollar : next '$' ('{' :: (name ++ ['}'] ++ r))
      = (ofText ['$'], '{' :: (name ++ ['}'] ++ r)) := rfl
  have hbrace : next '{' (name ++ ['}'] ++ r) = (ofText ['{'], name ++ ['}'] ++ r) := by
    refine next_of_brace ?_
    obtain ⟨c, name, rfl⟩ := List.exists_cons_of_ne_nil hname.1
    have hc : c ≠ '{' := ne_of_mem_of_not_mem List.mem_cons_self (hname.not_mem (by decide))
    exact fun hhead => hc (Option.some.inj hhead)
  have hplain : ∀ c ∈ name ++ ['}'], isPlain c = true := by
    refine List.forall_mem_append.mpr ⟨fun c hc => isPlain_of_isWordChar (hname.2 c hc), ?_⟩
    exact List.forall_mem_singleton.mpr (by decide)
  have hname' := joinTexts_pieces_plain (by simp) hplain r
  rw [bracedReference, List.cons_append, List.cons_append, pieces, hdollar, pieces, hbrace,
    joinTexts_cons_congr (joinTexts_cons_congr hname' _), joinTexts_ofText_ofText,
    joinTexts_ofText_ofText]
  rfl

/-- In quotes it is the same element between two marks. -/
theorem joinTexts_quotedReference {name : Text} (hname : IsWord name) (r : Text) :
    joinTexts (pieces (quotedReference name ++ r))
      = joinTexts (ofText ['"'] :: .variable (String.ofList name) :: ofText ['"'] :: pieces r) := by
  have hplain : ∀ c ∈ ['"'], isPlain c = true := List.forall_mem_singleton.mpr (by decide)
  have hends : EndsWord (['"'] ++ r) := endsWord_cons (by decide) r
  have hquote := joinTexts_pieces_plain (by simp) hplain r
  have hreference : quotedReference name ++ r = ['"'] ++ '$' :: (name ++ (['"'] ++ r)) := by
    simp [quotedReference]
  rw [hreference, joinTexts_pieces_plain (by simp) hplain, pieces_reference hname hends,
    joinTexts_cons_congr (joinTexts_cons_congr hquote _)]

/-! ## References in each other's place -/

/-- A reference may get braces, unless the brace behind it would close others. -/
theorem exchangeable_bracedReference {before name r : Text} (hname : IsWord name)
    (hbraces : r.head? = some '}' → ¬ OpensBraces before) :
    Exchangeable before ('$' :: (name ++ r)) (bracedReference name ++ r) where
  word := endsWord_cons (by decide) _
  brace := by simp [bracedReference]
  tick := by simp [bracedReference]
  closing b hb hclosed := by
    by_cases hinside : ['}', '}'] <:+: b
    · exact List.infix_append_of_infix_left hinside
    · have hfront : '}' ∉ '$' :: '{' :: name := by
        have hmem : '}' ∉ name := hname.not_mem (by decide)
        simpa using hmem
      have hline : bracedReference name ++ r = ('$' :: '{' :: name) ++ '}' :: r := by
        simp [bracedReference]
      rw [hline] at hclosed
      have hrest := (pair_infix_or hfront (List.cons_ne_nil _ _) hclosed).resolve_left hinside
      obtain hstart | hr := List.infix_cons_iff.mp hrest
      · obtain ⟨t, ht⟩ := (List.cons_prefix_cons.mp hstart).2
        exact absurd ⟨b, hb, hinside⟩ (hbraces (by rw [← ht]; rfl))
      · rw [← List.cons_append]
        exact List.infix_append_of_infix_right (List.infix_append_of_infix_right hr)

/-- It may get quotes anywhere. -/
theorem exchangeable_quotedReference {before name r : Text} (hname : IsWord name) :
    Exchangeable before ('$' :: (name ++ r)) (quotedReference name ++ r) where
  word := endsWord_cons (by decide) _
  brace := by simp [quotedReference]
  tick := by simp [quotedReference]
  closing b _ hclosed := by
    have hmem : '}' ∉ quotedReference name := by
      have hmem : '}' ∉ name := hname.not_mem (by decide)
      simpa [quotedReference] using hmem
    obtain hinside | hr := pair_infix_or hmem (List.cons_ne_nil _ _) hclosed
    · exact List.infix_append_of_infix_left hinside
    · rw [← List.cons_append]
      exact List.infix_append_of_infix_right (List.infix_append_of_infix_right hr)

end Element
end TaskRunner
