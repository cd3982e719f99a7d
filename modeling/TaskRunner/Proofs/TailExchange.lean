import TaskRunner.Proofs.ItemExchange

/-! # Reading does not depend on what comes much later

    Reading a text comes to a later text when whole items lead there (`Comes`).  The items
    in front of that place are the same ones, but for the places that they keep, when the
    text behind it is exchanged from somewhere on (**`Comes.exchange`**).  The file that is
    made of items does not hold these places (`TaskFile.read_congr`), so it is enough to see
    what the exchange does to the items behind. -/

namespace TaskRunner

open Text Item

/-! ## The items in front of a place -/

/-- Reading a text comes to a later text: up to there it reads whole items. -/
inductive Comes : Text → Text → Prop
  | here (s : Text) : Comes s s
  | behind {s rest after next r : Text} {doc : List Text} {c : Char} {item : Item}
      (hlead : leadingComments [] s = (doc, c :: rest))
      (hitem : declaration doc (c :: rest) = .ok (item, after))
      (hend : item.behind after = .ok next) (hlater : Comes next r) : Comes s r

namespace Comes

variable {n n' s v : Text}

theorem suffix {r : Text} (h : Comes s r) : r <:+ s := by
  induction h with
  | here s => exact List.suffix_rfl
  | @behind s rest after next r doc c item hlead hitem hend _ ih =>
      refine ih.trans ((behind_suffix hend).trans ((declaration_suffix hitem).trans ?_))
      have hsuffix := leadingComments_suffix [] s
      rwa [hlead] at hsuffix

/-- **WHAT COMES BEFORE A PLACE DOES NOT DEPEND ON WHAT COMES BEHIND IT**: when text behind a place
    that reading comes to is exchanged, reading comes to it again, with the same items. -/
theorem exchange (hn : BlankLed n) (h : Comes (s ++ n) (v ++ n)) (hv : Solid v)
    (hn' : BlankLed n') : ∃ found found', found'.map placeless = found.map placeless ∧
      items (s ++ n) = (found ++ (items (v ++ n)).1, (items (v ++ n)).2) ∧
      items (s ++ n') = (found' ++ (items (v ++ n')).1, (items (v ++ n')).2) := by
  generalize hs : s ++ n = t at h
  generalize hr : v ++ n = r at h
  induction h generalizing s with
  | here t =>
      obtain rfl := List.append_cancel_right (hs.trans hr.symm)
      exact ⟨[], [], rfl, rfl, rfl⟩
  | @behind t rest after next r doc c item hlead hitem hend hlater ih =>
      subst hs hr
      obtain ⟨w, rfl, hw⟩ := exists_of_suffix hlater.suffix
      obtain ⟨a, rfl, ha⟩ := exists_of_suffix (behind_suffix hend)
      have hitemSuffix := declaration_suffix hitem
      obtain ⟨b, hb, hab⟩ := exists_of_suffix hitemSuffix
      have hwSolid := hv.mono hw
      have haSolid := hwSolid.mono ha
      have hbSolid := haSolid.mono hab
      rw [hb] at hlead hitem
      obtain ⟨item', hitem', hsame⟩ := declaration_exchange hn hitem haSolid hn'
      have hlead' := leadingComments_exchange hlead hbSolid n'
      have hend' := behind_exchange hend hwSolid hsame n'
      obtain ⟨found, found', hfound, hitems, hitems'⟩ := ih rfl rfl
      refine ⟨item :: found, item' :: found', ?_, ?_, ?_⟩
      · rw [List.map_cons, List.map_cons, hsame, hfound]
      · rw [items_eq, hlead, ← hb, itemsFrom_cons (hb ▸ hitem) hend, hitems]
        rfl
      · obtain ⟨d, more, hd⟩ := List.exists_cons_of_ne_nil
          (List.append_ne_nil_of_left_ne_nil hbSolid.ne_nil n')
        rw [items_eq, hlead', hd, itemsFrom_cons (hd ▸ hitem') hend', hitems']
        rfl

end Comes

/-! ## Files that come out of items with other places -/

namespace Nesting

/-- The open blocks without their places. -/
def placeless (n : Nesting) : Nesting :=
  { n with blocks := n.blocks.map fun block => { block with brace := [] } }

/-- What an item does has nothing to do with places, errors apart. -/
theorem toOption_add_placeless (n : Nesting) (item : Item) :
    (n.placeless.add item.placeless).toOption = (n.add item).toOption.map placeless := by
  obtain ⟨⟨tasks, namespaces, vars, own⟩, blocks⟩ := n
  cases item with
  | «variable» v => cases blocks <;> rfl
  | task task => cases blocks <;> rfl
  | opening name start brace => cases blocks <;> cases own <;> rfl
  | closing place => rcases blocks with _ | ⟨block, _ | ⟨parent, outer⟩⟩ <;> rfl
  | fileNamespace name start after =>
      cases blocks <;> cases own <;> cases namespaces <;> rfl

theorem toOption_addAll_placeless (n : Nesting) (found : List Item) :
    (n.placeless.addAll (found.map Item.placeless)).toOption
      = (n.addAll found).toOption.map placeless := by
  induction found generalizing n with
  | nil => rfl
  | cons item found ih =>
      have hitem := toOption_add_placeless n item
      rw [List.map_cons, addAll, addAll]
      cases hadd : n.add item with
      | error e =>
          cases hplaceless : n.placeless.add item.placeless with
          | error e => rfl
          | ok next =>
              rw [hadd, hplaceless] at hitem
              cases hitem
      | ok next =>
          cases hplaceless : n.placeless.add item.placeless with
          | error e =>
              rw [hadd, hplaceless] at hitem
              cases hitem
          | ok next' =>
              rw [hadd, hplaceless] at hitem
              obtain rfl := Option.some.inj hitem
              exact ih next

/-- The file that comes out of items does not hold their places. -/
theorem addAll_congr {found found' : List Item} {file : TaskFile}
    (hfound : found'.map Item.placeless = found.map Item.placeless)
    (h : empty.addAll found = .ok ⟨file, []⟩) : empty.addAll found' = .ok ⟨file, []⟩ := by
  have hplaceless := toOption_addAll_placeless empty found'
  rw [hfound, toOption_addAll_placeless, h] at hplaceless
  obtain ⟨⟨file', blocks⟩, hadd, heq⟩ := Option.map_eq_some_iff.mp hplaceless.symm
  obtain ⟨rfl, hblocks⟩ := Nesting.mk.inj heq
  obtain rfl := List.map_eq_nil_iff.mp hblocks
  cases hok : empty.addAll found' with
  | error e =>
      rw [hok] at hadd
      cases hadd
  | ok n =>
      rw [hok] at hadd
      rw [Option.some.inj hadd]

end Nesting

/-- **THE FILE DOES NOT HOLD PLACES**: texts whose items differ in nothing else are read as the same
    file. -/
theorem TaskFile.read_congr {s s' : Text} {found found' : List Item} {file : TaskFile}
    (hitems : items s = (found, none)) (hitems' : items s' = (found', none))
    (hfound : found'.map placeless = found.map placeless) (h : read s = .ok file) :
    read s' = .ok file := by
  obtain ⟨_, hsame, hadd⟩ := read_eq_ok_iff.mp h
  obtain rfl := (Prod.mk.inj (hitems.symm.trans hsame)).1
  exact read_eq_ok_iff.mpr ⟨found', hitems', Nesting.addAll_congr hfound hadd⟩

end TaskRunner
