/-!
# Bindings of names to values

Bindings map names to values. They are kept as a list without repeated names, sorted
by name, so that two bindings with the same values are equal (`Bindings.ext_get?`).

A scope binds names for a while: `bind` gives the new bindings and what to remember,
and `restore` takes the remembered values back, the latest first. What was bound is
undone exactly (`restore_bindAll`).
-/

namespace TaskRunner

-- ── Sorted entries ───────────────────────────────────────────────────────────

/-- A name and the value it has. -/
abbrev Entry := String × String

namespace Entry

/-- Entries in strictly rising order of their names. -/
def Sorted (entries : List Entry) : Prop := entries.Pairwise fun a b => a.1 < b.1

/-- The value of a name. -/
def get? (name : String) : List Entry → Option String
  | [] => none
  | (key, value) :: rest => if key = name then some value else get? name rest

/-- Gives a name a value, in place of the one it had. -/
def insert (name value : String) : List Entry → List Entry
  | [] => [(name, value)]
  | (key, held) :: rest =>
    if name < key then (name, value) :: (key, held) :: rest
    else if name = key then (name, value) :: rest
    else (key, held) :: insert name value rest

/-- Takes a name out. -/
def erase (name : String) (entries : List Entry) : List Entry :=
  entries.filter fun entry => entry.1 != name

theorem mem_insert {name value : String} {entries : List Entry} {entry : Entry}
    (h : entry ∈ insert name value entries) : entry = (name, value) ∨ entry ∈ entries := by
  induction entries with
  | nil => simpa [insert] using h
  | cons first rest ih =>
    obtain ⟨key, held⟩ := first
    simp only [insert] at h
    split at h
    · exact (List.mem_cons.1 h).imp_right id
    · split at h
      · rcases List.mem_cons.1 h with h | h
        · exact Or.inl h
        · exact Or.inr (List.mem_cons_of_mem _ h)
      · rcases List.mem_cons.1 h with h | h
        · exact Or.inr (h ▸ List.mem_cons_self)
        · exact (ih h).imp_right (List.mem_cons_of_mem _)

theorem sorted_insert {entries : List Entry} (name value : String) (h : Sorted entries) :
    Sorted (insert name value entries) := by
  induction entries with
  | nil => exact List.pairwise_singleton _ _
  | cons first rest ih =>
    obtain ⟨key, held⟩ := first
    obtain ⟨hfirst, hrest⟩ := List.pairwise_cons.1 h
    simp only [insert]
    split
    · rename_i hlt
      refine List.pairwise_cons.2 ⟨fun other hother => ?_, h⟩
      rcases List.mem_cons.1 hother with rfl | hother
      · exact hlt
      · exact String.lt_trans hlt (hfirst other hother)
    · rename_i hlt
      split
      · rename_i heq
        subst heq
        exact List.pairwise_cons.2 ⟨hfirst, hrest⟩
      · rename_i hne
        refine List.pairwise_cons.2 ⟨fun other hother => ?_, ih hrest⟩
        rcases mem_insert hother with rfl | hother
        · by_cases hkey : key < name
          · exact hkey
          · exact absurd (String.le_antisymm hkey hlt) hne
        · exact hfirst other hother

theorem sorted_erase {entries : List Entry} (name : String) (h : Sorted entries) :
    Sorted (erase name entries) :=
  List.Pairwise.sublist List.filter_sublist h

theorem get?_insert (name value other : String) (entries : List Entry) :
    get? other (insert name value entries)
      = if name = other then some value else get? other entries := by
  induction entries with
  | nil => rfl
  | cons first rest ih =>
    obtain ⟨key, held⟩ := first
    simp only [insert]
    split
    · rfl
    · split
      · rename_i heq
        subst heq
        simp only [get?]
        split <;> rfl
      · rename_i hne
        simp only [get?, ih]
        by_cases hkey : key = other
        · rw [if_pos hkey, if_pos hkey, if_neg fun hname => hne (hname.trans hkey.symm)]
        · rw [if_neg hkey, if_neg hkey]

theorem get?_erase (name other : String) (entries : List Entry) :
    get? other (erase name entries) = if name = other then none else get? other entries := by
  induction entries with
  | nil => simp [erase, get?]
  | cons first rest ih =>
    obtain ⟨key, held⟩ := first
    rw [erase] at ih ⊢
    by_cases hkey : key = name
    · subst hkey
      rw [List.filter_cons_of_neg (by simp), ih]
      split
      · rfl
      · rename_i hne; simp [get?, hne]
    · rw [List.filter_cons_of_pos (by simpa using hkey)]
      simp only [get?, ih]
      by_cases hother : key = other
      · subst hother
        rw [if_pos rfl, if_pos rfl, if_neg (Ne.symm hkey)]
      · rw [if_neg hother, if_neg hother]

/-- A name smaller than all names of the entries has no value. -/
theorem get?_eq_none {name : String} {entries : List Entry}
    (h : ∀ entry ∈ entries, name < entry.1) : get? name entries = none := by
  induction entries with
  | nil => rfl
  | cons first rest ih =>
    obtain ⟨key, held⟩ := first
    have hlt : name < key := h _ List.mem_cons_self
    simp only [get?]
    rw [if_neg fun heq : key = name => String.lt_irrefl key (heq ▸ hlt)]
    exact ih fun entry hentry => h entry (List.mem_cons_of_mem _ hentry)

/-- Sorted entries that give every name the same value are the same. -/
theorem eq_of_get? {a b : List Entry} (ha : Sorted a) (hb : Sorted b)
    (h : ∀ name, get? name a = get? name b) : a = b := by
  induction a generalizing b with
  | nil =>
    cases b with
    | nil => rfl
    | cons first rest =>
      have := h first.1
      simp [get?] at this
  | cons first rest ih =>
    obtain ⟨key, value⟩ := first
    obtain ⟨hfirst, hrest⟩ := List.pairwise_cons.1 ha
    cases b with
    | nil =>
      have := h key
      simp [get?] at this
    | cons other more =>
      obtain ⟨key', value'⟩ := other
      obtain ⟨hother, hmore⟩ := List.pairwise_cons.1 hb
      have hkey : key = key' := by
        refine String.le_antisymm (fun hlt => ?_) fun hlt => ?_
        · have hk := h key'
          simp only [get?, if_pos] at hk
          rw [if_neg fun heq : key = key' => String.lt_irrefl key (heq ▸ hlt),
            get?_eq_none fun entry hentry => String.lt_trans hlt (hfirst entry hentry)] at hk
          exact absurd hk (by simp)
        · have hk := h key
          simp only [get?, if_pos] at hk
          rw [if_neg fun heq : key' = key => String.lt_irrefl key' (heq ▸ hlt),
            get?_eq_none fun entry hentry => String.lt_trans hlt (hother entry hentry)] at hk
          exact absurd hk (by simp)
      subst hkey
      have hvalue := h key
      simp only [get?, if_pos, Option.some.injEq] at hvalue
      subst hvalue
      rw [ih hrest hmore fun name => ?_]
      have hname := h name
      by_cases heq : key = name
      · subst heq
        rw [get?_eq_none hfirst, get?_eq_none hother]
      · simpa only [get?, if_neg heq] using hname

end Entry

-- ── Bindings ─────────────────────────────────────────────────────────────────

/-- Values of names. -/
structure Bindings where
  entries : List Entry
  sorted : Entry.Sorted entries
deriving DecidableEq

namespace Bindings

/-- No name has a value. -/
def empty : Bindings := ⟨[], List.Pairwise.nil⟩

instance : Inhabited Bindings := ⟨empty⟩

instance : Repr Bindings := ⟨fun b => reprPrec b.entries⟩

/-- The value of a name. -/
def get? (b : Bindings) (name : String) : Option String := Entry.get? name b.entries

/-- Gives a name a value, in place of the one it had. -/
def insert (b : Bindings) (name value : String) : Bindings :=
  ⟨Entry.insert name value b.entries, Entry.sorted_insert name value b.sorted⟩

/-- Takes a name out. -/
def erase (b : Bindings) (name : String) : Bindings :=
  ⟨Entry.erase name b.entries, Entry.sorted_erase name b.sorted⟩

/-- The bindings that a list of entries makes, the later of two entries with one name. -/
def ofList (entries : List Entry) : Bindings :=
  entries.foldl (fun b entry => b.insert entry.1 entry.2) empty

/-- The bindings with those of `front` before them. -/
def overlay (b front : Bindings) : Bindings :=
  front.entries.foldl (fun b entry => b.insert entry.1 entry.2) b

theorem get?_empty (name : String) : empty.get? name = none := rfl

theorem get?_insert (b : Bindings) (name value other : String) :
    (b.insert name value).get? other = if name = other then some value else b.get? other :=
  Entry.get?_insert name value other b.entries

theorem get?_erase (b : Bindings) (name other : String) :
    (b.erase name).get? other = if name = other then none else b.get? other :=
  Entry.get?_erase name other b.entries

/-- Bindings that give every name the same value are equal. -/
theorem ext_get? {a b : Bindings} (h : ∀ name, a.get? name = b.get? name) : a = b := by
  obtain ⟨entries, sorted⟩ := a
  obtain ⟨entries', sorted'⟩ := b
  have := Entry.eq_of_get? sorted sorted' h
  subst this
  rfl

-- ── Scopes ───────────────────────────────────────────────────────────────────

/-- What a name held before it was bound: its value, or nothing. -/
structure Saved where
  name : String
  held : Option String
deriving DecidableEq, Repr

/-- Binds a name, and gives what it held. -/
def bind (b : Bindings) (name value : String) : Bindings × Saved :=
  (b.insert name value, ⟨name, b.get? name⟩)

/-- Gives a name back what it held. -/
def undo (b : Bindings) (saved : Saved) : Bindings :=
  match saved.held with
  | some value => b.insert saved.name value
  | none => b.erase saved.name

/-- Undoes the bindings of a scope, given in the order they were made, the latest first. -/
def restore (b : Bindings) (saved : List Saved) : Bindings := saved.foldr (fun s b => b.undo s) b

/-- Binds names one after the other, and gives what they held. -/
def bindAll (b : Bindings) : List Entry → Bindings × List Saved
  | [] => (b, [])
  | (name, value) :: rest =>
    let more := (b.bind name value).1.bindAll rest
    (more.1, (b.bind name value).2 :: more.2)

/-- Undoing a binding gives the bindings before it. -/
theorem undo_bind (b : Bindings) (name value : String) :
    (b.bind name value).1.undo (b.bind name value).2 = b := by
  apply ext_get?
  intro other
  rw [bind, undo]
  dsimp only
  split
  · rename_i held hheld
    rw [get?_insert, get?_insert]
    by_cases h : name = other
    · subst h; rw [if_pos rfl, hheld]
    · rw [if_neg h, if_neg h]
  · rename_i hheld
    rw [get?_erase, get?_insert]
    by_cases h : name = other
    · subst h; rw [if_pos rfl, hheld]
    · rw [if_neg h, if_neg h]

theorem restore_cons (b : Bindings) (saved : Saved) (rest : List Saved) :
    b.restore (saved :: rest) = (b.restore rest).undo saved := rfl

theorem restore_append (b : Bindings) (first second : List Saved) :
    b.restore (first ++ second) = (b.restore second).restore first := by
  simp [restore]

/-- Restoring what `bindAll` saved gives the bindings before it. -/
theorem restore_bindAll (b : Bindings) (entries : List Entry) :
    (b.bindAll entries).1.restore (b.bindAll entries).2 = b := by
  induction entries generalizing b with
  | nil => rfl
  | cons first rest ih =>
    obtain ⟨name, value⟩ := first
    simp only [bindAll]
    rw [restore_cons, ih, undo_bind]

end Bindings

end TaskRunner
