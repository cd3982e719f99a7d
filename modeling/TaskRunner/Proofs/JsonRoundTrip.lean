import TaskRunner.TaskFile.Decoding
import TaskRunner.TaskFile.Encoding

/-! # Task files survive JSON

    What is written for a task file is read back as the same task file.  The writing side
    puts members in a row, and leaves some of them out; the reading side asks for one
    field after the other.  Between the two stands, for each kind of record, what its
    object **holds** under each name (`Task.Written` and its like): that is all that
    reading needs to know of writing, and it is what other readers of the format rely on.

    A value of one of several kinds is told by its tag alone.  The tag that is written is
    that of the kind, and whatever is read with a tag is of the kind that the tag tells,
    no matter what else the object has (`Value.kind_of_decode` and its like).

    Expressions and namespaces hold others of their own sort, and are read by recursion on
    the size of what is read.  `Expression.decode_eq` and `Namespace.decode_eq` are their
    equations without the sizes; the proofs go by the structure of what was written. -/

namespace TaskRunner

open Json

/-! ## Objects -/

namespace Json

/-- The value is an object. -/
def IsObject (value : Json) : Prop := ∃ members, value = .object members

/-- The names of the members of an object, in order. -/
def keys : Json → List String
  | .object members => members.map (·.1)
  | _ => []

/-- What an object holds under a name. -/
def held? (name : String) : Json → Option Json
  | .object members => member? name members
  | _ => none

/-- A member is looked for in the first members before the others. -/
theorem member?_append (name : String) (members more : List (String × Json)) :
    member? name (members ++ more) = (member? name members).or (member? name more) := by
  induction members with
  | nil => rfl
  | cons first rest ih =>
      obtain ⟨key, value⟩ := first
      rw [List.cons_append, member?, member?]
      by_cases hkey : key = name
      · rw [if_pos hkey, if_pos hkey]
        rfl
      · rw [if_neg hkey, if_neg hkey, ih]

/-- A member that may be left out is there if it has a value. -/
theorem member?_optionalMember (name key : String) (value : Option String) :
    member? name (optionalMember key value)
      = if key = name then value.map Json.string else none := by
  cases value with
  | none => simp [optionalMember, member?]
  | some text => simp [optionalMember, member?]

variable {fields : List String} {name : String} {record : Json}

/-- An object holds its fields under their names, whatever their order is. -/
theorem required?_of_isObject {α : Type} (h : record.IsObject) (read : Json → Option α) :
    record.required? fields name read = (record.held? name).bind read := by
  obtain ⟨members, rfl⟩ := h
  rfl

/-- Of an object a field that may be absent is read, or has its default. -/
theorem optional?_of_isObject {α : Type} (h : record.IsObject) (absent : α)
    (read : Json → Option α) :
    record.optional? fields name absent read
      = match record.held? name with
        | none => some absent
        | some value => read value := by
  obtain ⟨members, rfl⟩ := h
  rfl

/-- A text that must be there is read back. -/
theorem required?_text (h : record.IsObject) {text : String}
    (hheld : record.held? name = some (.string text)) :
    record.required? fields name text? = some text := by
  rw [required?_of_isObject h, hheld]
  rfl

/-- So is a flag, whatever its default is. -/
theorem optional?_flag (h : record.IsObject) {flag absent : Bool}
    (hheld : record.held? name = some (.bool flag)) :
    record.optional? fields name absent flag? = some flag := by
  rw [optional?_of_isObject h, hheld]
  rfl

/-- An optional field that may be `null` is read as it was, present or not. -/
theorem optional?_nullable {α : Type} {encode : α → Json} {read : Json → Option α}
    (h : record.IsObject) {value : Option α} (hheld : record.held? name = value.map encode)
    (hnull : ∀ a, encode a ≠ .null) (hread : ∀ a, read (encode a) = some a) :
    record.optional? fields name none (nullable? read) = some value := by
  rw [optional?_of_isObject h, hheld]
  cases value with
  | none => rfl
  | some a =>
      show nullable? read (encode a) = some (some a)
      rw [nullable?, hread]
      · rfl
      · exact hnull a

/-- A text that may be missing is read back, be it there or not. -/
theorem optional?_text (h : record.IsObject) {value : Option String}
    (hheld : record.held? name = value.map Json.string) :
    record.optional? fields name none (nullable? text?) = some value :=
  optional?_nullable h hheld (fun _ hnull => by cases hnull) fun _ => rfl

/-- Items that are read as they were are read as the list that they were. -/
theorem mapM_map_encode {α : Type} {encode : α → Json} {read : Json → Option α} {items : List α}
    (hread : ∀ item ∈ items, read (encode item) = some item) :
    (items.map encode).mapM read = some items := by
  induction items with
  | nil => rfl
  | cons item rest ih =>
      rw [List.map_cons, List.mapM_cons, hread item List.mem_cons_self,
        ih fun other hmem => hread other (List.mem_cons_of_mem _ hmem)]
      rfl

/-- A list is read back if each of its items is. -/
theorem optional?_list {α : Type} {encode : α → Json} {read : Json → Option α}
    (h : record.IsObject) {items : List α}
    (hheld : record.held? name = some (.array (items.map encode)))
    (hread : ∀ item ∈ items, read (encode item) = some item) :
    record.optional? fields name [] (listOf? read) = some items := by
  rw [optional?_of_isObject h, hheld]
  exact mapM_map_encode hread

end Json

/-! ## Expressions -/

namespace Expression

/-- The kind of an expression, as its tag has it. -/
def kind : Expression → String
  | .identifier _ => "identifier"
  | .access _ _ => "access_id"
  | .literal _ => "string_literal"
  | .either _ _ => "or"

/-- Without a tag there is nothing to tell the variants apart by. -/
theorem decode_of_tag_none {value : Json} (h : value.tag? = none) : decode value = none := by
  rw [decode]
  split
  · rfl
  · rename_i tag record htag
    cases h.symm.trans htag

/-- Reading an expression, without the sizes that the recursion goes by. -/
theorem decode_of_tag {value tag record : Json} (h : value.tag? = some (tag, record)) :
    decode value = match kind? tag with
      | some "identifier" => (record.required? ["name"] "name" text?).map .identifier
      | some "access_id" =>
        (record.required? ["object", "property"] "object" decode).bind fun object =>
          (record.required? ["object", "property"] "property" text?).map (.access object)
      | some "string_literal" => (record.required? ["value"] "value" text?).map .literal
      | some "or" =>
        (record.required? ["left", "right"] "left" decode).bind fun left =>
          (record.required? ["left", "right"] "right" decode).map (.either left)
      | _ => none := by
  rw [decode]
  split
  · rename_i htag
    cases h.symm.trans htag
  · rename_i tag' record' htag
    obtain ⟨rfl, rfl⟩ := Prod.mk.inj (Option.some.inj (h.symm.trans htag))
    generalize kind? tag = kind
    split
    case h_1 => rfl
    case h_2 =>
        show _ = (record.required? ["object", "property"] "object" decode).bind _
        split
        · rename_i hnone
          rw [required?, hnone]
          rfl
        · rename_i held hheld
          rw [show record.required? ["object", "property"] "object" decode = decode held by
            rw [required?, hheld, Option.bind_some]]
          cases decode held with
          | none => rfl
          | some object =>
              cases record.required? ["object", "property"] "property" text? with
              | none => rfl
              | some property => rfl
    case h_3 => rfl
    case h_4 =>
        show _ = (record.required? ["left", "right"] "left" decode).bind _
        split
        · rename_i left right hleft hright
          simp only [required?, hleft, hright, Option.bind_some]
          cases decode left with
          | none => rfl
          | some first =>
              cases decode right with
              | none => rfl
              | some second => rfl
        · rename_i hmissing
          cases hleft : record.field? ["left", "right"] "left" with
          | none =>
              rw [required?, hleft]
              rfl
          | some left =>
              cases hright : record.field? ["left", "right"] "right" with
              | none => simp [required?, hright]
              | some right => exact absurd hright (hmissing left right hleft)
    case h_5 => simp_all

/-- The tag that is written is the name of the variant. -/
theorem type_encode (e : Expression) : e.encode.held? "type" = some (.string e.kind) := by
  cases e <;> rfl

/-- No two variants have one name. -/
theorem ctorIdx_of_kind {a b : Expression} (h : a.kind = b.kind) : a.ctorIdx = b.ctorIdx := by
  cases a <;> cases b <;> first | rfl | simp [kind] at h

/-- What was written for an expression is read as that expression. -/
theorem decode_encode (e : Expression) : decode e.encode = some e := by
  induction e with
  | identifier name =>
      rw [encode, decode_of_tag rfl]
      rfl
  | access object property ih =>
      rw [encode, decode_of_tag rfl]
      show (decode object.encode).bind _ = _
      rw [ih]
      rfl
  | literal value =>
      rw [encode, decode_of_tag rfl]
      rfl
  | either left right ihLeft ihRight =>
      rw [encode, decode_of_tag rfl]
      show ((decode left.encode).bind fun first =>
        (decode right.encode).map (Expression.either first)) = _
      rw [ihLeft, ihRight]
      rfl

/-- The tag tells the kind of what is read. -/
theorem kind_of_decode {value : Json} {e : Expression} (h : decode value = some e) :
    ∃ tag record, value.tag? = some (tag, record) ∧ kind? tag = some e.kind := by
  cases htag : value.tag? with
  | none => cases h.symm.trans (decode_of_tag_none htag)
  | some tagged =>
      obtain ⟨tag, record⟩ := tagged
      refine ⟨tag, record, rfl, ?_⟩
      rw [decode_of_tag htag] at h
      split at h
      case h_1 hkind =>
          obtain ⟨name, -, rfl⟩ := Option.map_eq_some_iff.mp h
          exact hkind
      case h_2 hkind =>
          obtain ⟨object, -, h⟩ := Option.bind_eq_some_iff.mp h
          obtain ⟨property, -, rfl⟩ := Option.map_eq_some_iff.mp h
          exact hkind
      case h_3 hkind =>
          obtain ⟨name, -, rfl⟩ := Option.map_eq_some_iff.mp h
          exact hkind
      case h_4 hkind =>
          obtain ⟨left, -, h⟩ := Option.bind_eq_some_iff.mp h
          obtain ⟨right, -, rfl⟩ := Option.map_eq_some_iff.mp h
          exact hkind
      case h_5 => cases h

end Expression

/-! ## Pieces of command lines and right-hand sides -/

/-- Where a tag has one text and all that is made with it is of that kind, the tag tells the kind. -/
theorem Json.tag_of_map {α β : Type} {tag : Json} {text : String} {read : Option α} {make : α → β}
    {b : β} (kind : β → String) (htext : tag.text? = some text)
    (hkind : ∀ a, kind (make a) = text) (h : read.map make = some b) :
    tag = .string (kind b) := by
  obtain ⟨a, -, rfl⟩ := Option.map_eq_some_iff.mp h
  rw [hkind]
  cases tag with
  | string held => exact congrArg Json.string (Option.some.inj htext)
  | _ => cases htext

namespace Element

/-- The kind of a piece, as its tag has it. -/
def kind : Element → String
  | .text _ => "string"
  | .variable _ => "variable"
  | .backtick _ => "backtick"
  | .expression _ => "expression"

/-- The tag that is written is the name of the variant. -/
theorem type_encode (element : Element) : element.encode.held? "type" = some (.string element.kind) := by
  cases element <;> rfl

/-- No two variants have one name. -/
theorem ctorIdx_of_kind {a b : Element} (h : a.kind = b.kind) : a.ctorIdx = b.ctorIdx := by
  cases a <;> cases b <;> first | rfl | simp [kind] at h

/-- **READING UNDOES WRITING** for each of the variants. -/
theorem decode_encode (element : Element) : decode element.encode = some element := by
  rcases element with value | name | command | e
  · rfl
  · rfl
  · rfl
  · show (Expression.decode e.encode).map Element.expression = _
    rw [Expression.decode_encode]
    rfl

/-- The tag tells the kind of what is read. -/
theorem kind_of_decode {value : Json} {element : Element} (h : decode value = some element) :
    ∃ record, value.tag? = some (.string element.kind, record) := by
  obtain ⟨⟨tag, record⟩, htag, hread⟩ := Option.bind_eq_some_iff.mp h
  dsimp only at hread
  split at hread
  case h_1 hkind => exact ⟨record, Json.tag_of_map kind hkind (fun _ => rfl) hread ▸ htag⟩
  case h_2 hkind => exact ⟨record, Json.tag_of_map kind hkind (fun _ => rfl) hread ▸ htag⟩
  case h_3 hkind => exact ⟨record, Json.tag_of_map kind hkind (fun _ => rfl) hread ▸ htag⟩
  case h_4 hkind => exact ⟨record, Json.tag_of_map kind hkind (fun _ => rfl) hread ▸ htag⟩
  case h_5 => cases hread

end Element

namespace Value

/-- The kind of a right-hand side, as its tag has it. -/
def kind : Value → String
  | .literal _ => "literal"
  | .substitution _ => "command_substitution"
  | .expression _ => "expression"
  | .multiline _ => "multiline"

/-- The tag that is written is the name of the variant. -/
theorem type_encode (value : Value) : value.encode.held? "type" = some (.string value.kind) := by
  cases value <;> rfl

/-- No two variants have one name. -/
theorem ctorIdx_of_kind {a b : Value} (h : a.kind = b.kind) : a.ctorIdx = b.ctorIdx := by
  cases a <;> cases b <;> first | rfl | simp [kind] at h

/-- **READING UNDOES WRITING** for each of the variants. -/
theorem decode_encode (value : Value) : decode value.encode = some value := by
  cases value with
  | literal text => rfl
  | substitution command => rfl
  | expression e =>
      show (Expression.decode e.encode).map Value.expression = _
      rw [Expression.decode_encode]
      rfl
  | multiline text => rfl

/-- The tag tells the kind of what is read. -/
theorem kind_of_decode {json : Json} {value : Value} (h : decode json = some value) :
    ∃ record, json.tag? = some (.string value.kind, record) := by
  obtain ⟨⟨tag, record⟩, htag, hread⟩ := Option.bind_eq_some_iff.mp h
  dsimp only at hread
  split at hread
  case h_1 hkind => exact ⟨record, Json.tag_of_map kind hkind (fun _ => rfl) hread ▸ htag⟩
  case h_2 hkind => exact ⟨record, Json.tag_of_map kind hkind (fun _ => rfl) hread ▸ htag⟩
  case h_3 hkind => exact ⟨record, Json.tag_of_map kind hkind (fun _ => rfl) hread ▸ htag⟩
  case h_4 hkind => exact ⟨record, Json.tag_of_map kind hkind (fun _ => rfl) hread ▸ htag⟩
  case h_5 => cases hread

end Value

/-! ## Records -/

/-- What is written for a command. -/
structure Command.Written (command : Command) (record : Json) : Prop where
  object : record.IsObject
  keys : record.keys = Command.fields
  elements : record.held? "elements" = some (.array (command.elements.map Element.encode))
  silent : record.held? "silent" = some (.bool command.silent)
  mayFail : record.held? "continue_on_error" = some (.bool command.mayFail)

/-- A command has its members under their names. -/
theorem Command.written (command : Command) : command.Written command.encode :=
  ⟨⟨_, rfl⟩, rfl, rfl, rfl, rfl⟩

/-- A command is read back. -/
theorem Command.decode_encode (command : Command) : decode command.encode = some command := by
  have h := command.written
  rw [decode, optional?_list h.object h.elements fun element _ => element.decode_encode,
    optional?_flag h.object h.silent, optional?_flag h.object h.mayFail]
  rfl

/-- A variable is read back with its value. -/
theorem Variable.decode_encode (v : Variable) : decode v.encode = some v := by
  rw [decode, encode, required?_text ⟨_, rfl⟩ rfl, required?_of_isObject ⟨_, rfl⟩]
  show ((Value.decode v.value.encode).bind fun value => some (⟨v.name, value⟩ : Variable)) = _
  rw [Value.decode_encode]
  rfl

/-- What is written for the dispatch of a task. -/
structure Dispatch.Written (d : Dispatch) (record : Json) : Prop where
  object : record.IsObject
  keys : record.keys = "dispatcher" :: if d.sourceDir.isSome then ["source_dir"] else []
  dispatcher : record.held? "dispatcher" = some (.string d.dispatcher)
  sourceDir : record.held? "source_dir" = d.sourceDir.map Json.string

/-- A dispatch writes its directory only if it has one. -/
theorem Dispatch.written (d : Dispatch) : d.Written d.encode := by
  obtain ⟨dispatcher, sourceDir⟩ := d
  cases sourceDir with
  | none => exact ⟨⟨_, rfl⟩, rfl, rfl, rfl⟩
  | some dir => exact ⟨⟨_, rfl⟩, rfl, rfl, rfl⟩

/-- A dispatch is read back. -/
theorem Dispatch.decode_encode (d : Dispatch) : decode d.encode = some d := by
  have h := d.written
  rw [decode, required?_text h.object h.dispatcher, optional?_text h.object h.sourceDir]
  rfl

/-- A task has something to write in a field: always, but for the optional ones. -/
def Task.has (task : Task) : String → Bool
  | "description" => task.description.isSome
  | "external" => task.dispatch.isSome
  | "source_file" => task.source.isSome
  | "namespace" => task.home.isSome
  | _ => true

/-- What is written for a task: its fields in order, without the optional ones that are absent, and
lists also when they are empty. -/
structure Task.Written (task : Task) (record : Json) : Prop where
  object : record.IsObject
  keys : record.keys = Task.fields.filter task.has
  name : record.held? "name" = some (.string task.name)
  description : record.held? "description" = task.description.map Json.string
  arguments : record.held? "arguments" = some (Json.strings task.arguments)
  dependencies : record.held? "dependencies" = some (Json.strings task.dependencies)
  commands : record.held? "commands" = some (.array (task.commands.map Command.encode))
  dispatch : record.held? "external" = task.dispatch.map Dispatch.encode
  source : record.held? "source_file" = task.source.map Json.string
  home : record.held? "namespace" = task.home.map Json.string

/-- A task writes what it has, and leaves out what it does not have. -/
theorem Task.written (task : Task) : task.Written task.encode := by
  obtain ⟨name, description, arguments, dependencies, commands, dispatch, source, home⟩ := task
  constructor
  case object => exact ⟨_, rfl⟩
  case keys =>
      cases description <;> cases dispatch <;> cases source <;> cases home <;> rfl
  all_goals
    cases dispatch <;>
      simp [encode, held?, member?, member?_append, member?_optionalMember]

/-- A task is read back, with commands and dispatch. -/
theorem Task.decode_encode (task : Task) : decode task.encode = some task := by
  have h := task.written
  rw [decode, required?_text h.object h.name, optional?_text h.object h.description,
    optional?_list h.object h.arguments fun _ _ => rfl,
    optional?_list h.object h.dependencies fun _ _ => rfl,
    optional?_list h.object h.commands fun command _ => command.decode_encode,
    optional?_nullable h.object h.dispatch (fun _ hnull => by cases hnull) Dispatch.decode_encode,
    optional?_text h.object h.source, optional?_text h.object h.home]
  rfl

/-! ## Namespaces and files -/

/-- Namespaces are written one by one. -/
theorem encodeNamespaces_eq_map (namespaces : List Namespace) :
    encodeNamespaces namespaces = namespaces.map Namespace.encode := by
  induction namespaces with
  | nil => rfl
  | cons ns rest ih => rw [encodeNamespaces, ih, List.map_cons]

/-- What is written for a namespace. -/
structure Namespace.Written (ns : Namespace) (record : Json) : Prop where
  object : record.IsObject
  keys : record.keys = Namespace.fields
  name : record.held? "name" = some (.string ns.name)
  tasks : record.held? "tasks" = some (.array (ns.tasks.map Task.encode))
  vars : record.held? "variables" = some (.array (ns.vars.map Variable.encode))
  namespaces : record.held? "namespaces" = some (.array (ns.namespaces.map Namespace.encode))

/-- A namespace has its members under their names, the inner namespaces among them. -/
theorem Namespace.written (ns : Namespace) : ns.Written ns.encode := by
  obtain ⟨name, tasks, vars, namespaces⟩ := ns
  rw [Namespace.encode, encodeNamespaces_eq_map]
  exact ⟨⟨_, rfl⟩, rfl, rfl, rfl, rfl, rfl⟩

/-- Reading a namespace, without the sizes that the recursion goes by. -/
theorem Namespace.decode_of_items {record : Json} {items : List Json} (h : record.IsObject)
    (hheld : record.held? "namespaces" = some (.array items)) :
    Namespace.decode record = (decodeNamespaces items).bind (Namespace.decodeWith record) := by
  have hfield : record.field? Namespace.fields "namespaces" = some (.array items) := by
    obtain ⟨members, rfl⟩ := h
    exact hheld
  rw [Namespace.decode]
  split
  · rename_i hnone
    cases hnone.symm.trans hfield
  · rename_i held hsome
    obtain rfl := Option.some.inj (hsome.symm.trans hfield)
    rfl

/-- Besides its namespaces, a namespace is read as it was written. -/
theorem Namespace.decodeWith_encode (ns : Namespace) :
    Namespace.decodeWith ns.encode ns.namespaces = some ns := by
  have h := ns.written
  rw [decodeWith, required?_text h.object h.name,
    optional?_list h.object h.tasks fun task _ => task.decode_encode,
    optional?_list h.object h.vars fun v _ => v.decode_encode]
  cases ns
  rfl

mutual

/-- A namespace is read back, with all that is in it. -/
theorem Namespace.decode_encode : ∀ ns : Namespace, Namespace.decode ns.encode = some ns
  | ⟨name, tasks, vars, namespaces⟩ => by
    let ns : Namespace := ⟨name, tasks, vars, namespaces⟩
    have h := ns.written
    rw [Namespace.decode_of_items h.object h.namespaces, ← encodeNamespaces_eq_map,
      decodeNamespaces_encode namespaces]
    exact ns.decodeWith_encode

/-- So is a list of namespaces. -/
theorem decodeNamespaces_encode :
    ∀ namespaces : List Namespace, decodeNamespaces (encodeNamespaces namespaces) = some namespaces
  | [] => by rw [encodeNamespaces, decodeNamespaces]
  | ns :: rest => by
    rw [encodeNamespaces, decodeNamespaces, Namespace.decode_encode ns, decodeNamespaces_encode rest]

end

/-- A file has something to write in a field: always, but for the name of its own namespace. -/
def TaskFile.has (file : TaskFile) : String → Bool
  | "file_namespace" => file.fileNamespace.isSome
  | _ => true

/-- What is written for a file. -/
structure TaskFile.Written (file : TaskFile) (record : Json) : Prop where
  object : record.IsObject
  keys : record.keys = TaskFile.fields.filter file.has
  tasks : record.held? "tasks" = some (.array (file.tasks.map Task.encode))
  namespaces : record.held? "namespaces" = some (.array (file.namespaces.map Namespace.encode))
  vars : record.held? "variables" = some (.array (file.vars.map Variable.encode))
  fileNamespace : record.held? "file_namespace" = file.fileNamespace.map Json.string

/-- A file has its members under their names. -/
theorem TaskFile.written (file : TaskFile) : file.Written file.encode := by
  obtain ⟨tasks, namespaces, vars, fileNamespace⟩ := file
  rw [encode, encodeNamespaces_eq_map]
  cases fileNamespace with
  | none => exact ⟨⟨_, rfl⟩, rfl, rfl, rfl, rfl, rfl⟩
  | some name => exact ⟨⟨_, rfl⟩, rfl, rfl, rfl, rfl, rfl⟩

/-- A whole file is read back. -/
theorem TaskFile.decode_encode (file : TaskFile) : decode file.encode = some file := by
  have h := file.written
  have hnamespaces : file.encode.optional? fields "namespaces" []
      (fun held => held.items?.bind decodeNamespaces) = some file.namespaces := by
    rw [optional?_of_isObject h.object, h.namespaces, ← encodeNamespaces_eq_map]
    exact decodeNamespaces_encode file.namespaces
  rw [decode, optional?_list h.object h.tasks fun task _ => task.decode_encode, hnamespaces,
    optional?_list h.object h.vars fun v _ => v.decode_encode,
    optional?_text h.object h.fileNamespace]
  rfl

/-- **TASK FILES SURVIVE JSON**: what is written for a task file, with whatever names, namespaces
    and expressions in it, is read back as that file.

    What is written for a file, a task, a namespace, a command or a dispatch has the fields
    in order, lists also where they are empty, and optional fields just where they are
    present.  What is written for a right-hand side, a piece of a command line or an
    expression is an object with the tag of its kind; kinds have tags of their own; and
    whatever is read, from any object or array, is of the kind that its tag tells. -/
theorem TaskFile.json_round_trip :
    (∀ file : TaskFile, decode file.encode = some file) ∧
    ((∀ file : TaskFile, file.Written file.encode) ∧
      (∀ task : Task, task.Written task.encode) ∧
      (∀ ns : Namespace, ns.Written ns.encode) ∧
      (∀ command : Command, command.Written command.encode) ∧
      ∀ d : Dispatch, d.Written d.encode) ∧
    ((∀ value : Value, value.encode.held? "type" = some (.string value.kind)) ∧
      (∀ a b : Value, a.kind = b.kind → a.ctorIdx = b.ctorIdx) ∧
      ∀ json value, Value.decode json = some value →
        ∃ record, json.tag? = some (.string value.kind, record)) ∧
    ((∀ element : Element, element.encode.held? "type" = some (.string element.kind)) ∧
      (∀ a b : Element, a.kind = b.kind → a.ctorIdx = b.ctorIdx) ∧
      ∀ json element, Element.decode json = some element →
        ∃ record, json.tag? = some (.string element.kind, record)) ∧
    ((∀ e : Expression, e.encode.held? "type" = some (.string e.kind)) ∧
      (∀ a b : Expression, a.kind = b.kind → a.ctorIdx = b.ctorIdx) ∧
      ∀ json e, Expression.decode json = some e →
        ∃ tag record, json.tag? = some (tag, record) ∧ Expression.kind? tag = some e.kind) := by
  refine ⟨decode_encode, ?_, ?_, ?_, ?_⟩
  · exact ⟨written, Task.written, Namespace.written, Command.written, Dispatch.written⟩
  · exact ⟨Value.type_encode, fun _ _ => Value.ctorIdx_of_kind, fun _ _ => Value.kind_of_decode⟩
  · exact ⟨Element.type_encode, fun _ _ => Element.ctorIdx_of_kind,
      fun _ _ => Element.kind_of_decode⟩
  · exact ⟨Expression.type_encode, fun _ _ => Expression.ctorIdx_of_kind,
      fun _ _ => Expression.kind_of_decode⟩

/-- A value with the members of two kinds is of the kind of its tag. -/
theorem Value.substitution_by_tag :
    let json : Json := .object
      [("value", .string "x"), ("type", .string "command_substitution"), ("command", .string "date")]
    Value.decode json = some (.substitution "date") ∧
      ∃ record, json.tag? = some (.string "command_substitution", record) := by
  intro json
  have hread : Value.decode json = some (.substitution "date") := rfl
  exact ⟨hread, TaskFile.json_round_trip.2.2.1.2.2 json _ hread⟩

end TaskRunner
