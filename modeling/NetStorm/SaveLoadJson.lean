import NetStorm.JsonHandlers
import NetStorm.CommonExpr

/-!
# The JSON of a graph

`SaveJSON` and `LoadJSON` of nnvm, on the side of the text: `JSONNode` and `JSONGraph` with their
`Save` and `Load`. Every JSON graph that holds numbers of 32 bits, clean keys, registered operators
and attributes of the types `str`, `list_int`, `list_str`, `int` and `size_t` is loaded as it was
saved. The other types with a handler, `list_shape`, `list_layout` and `dict_str_int`, are left out.
-/
namespace NetStorm
namespace SaveLoadJson
open Json RoundTrip

/-- `JSONNode::Entry`. -/
structure Entry where
  nodeId : ℕ
  index : ℕ
  version : ℕ
deriving DecidableEq

/-- The check that there is a next item. -/
def checkNext (message : String) : Reader Unit := do
  let next ← nextArrayItem
  check next fun _ => message

/-- The check that there is no next item. -/
def checkLast (message : String) : Reader Unit := do
  let next ← nextArrayItem
  check (!next) fun _ => message

/-- `JSONNode::Entry::Save` and `JSONNode::Entry::Load`. -/
def entryHandler : Handler Entry where
  write e := writeArray false
    [uint32Handler.write e.nodeId, uint32Handler.write e.index, uint32Handler.write e.version]
  read := do
    beginArray
    checkNext "invalid json format"
    let nodeId ← uint32Handler.read
    checkNext "invalid json format"
    let index ← uint32Handler.read
    if ← nextArrayItem then
      let version ← uint32Handler.read
      checkLast "invalid json format"
      return ⟨nodeId, index, version⟩
    else return ⟨nodeId, index, 0⟩

/-- The values of the attributes of graphs. For `bool` no handler is registered, and those of the
other types are left out. -/
inductive Any where
  | str (s : String)
  | listInt (l : List ℤ)
  | listStr (l : List String)
  | int (z : ℤ)
  | size (n : ℕ)
  | bool (b : Bool)
  | other (type : String)

/-- A value behind the name of its type. -/
def writeTyped (typeName : String) (value : Writer Unit) : Writer Unit :=
  writeArray false [stringHandler.write typeName, writeChecked value]

/-- `Handler<any>::Write`. -/
def Any.write : Any → Writer Unit
  | str s => writeTyped "str" (stringHandler.write s)
  | listInt l => writeTyped "list_int" ((arrayHandler true intHandler).write l)
  | listStr l => writeTyped "list_str" ((arrayHandler false stringHandler).write l)
  | int z => writeTyped "int" (intHandler.write z)
  | size n => writeTyped "size_t" (sizeHandler.write n)
  | bool _ => throw "Type b has not been registered via DMLC_JSON_ENABLE_ANY"
  | other type => throw ("Type " ++ type ++ " has not been registered via DMLC_JSON_ENABLE_ANY")

/-- The reader of the type of this name. -/
def Any.reader (typeName : String) : Option (Reader Any) :=
  if typeName = "str" then some (Any.str <$> stringHandler.read)
  else if typeName = "list_int" then some (Any.listInt <$> (arrayHandler true intHandler).read)
  else if typeName = "list_str" then some (Any.listStr <$> (arrayHandler false stringHandler).read)
  else if typeName = "int" then some (Any.int <$> intHandler.read)
  else if typeName = "size_t" then some (Any.size <$> sizeHandler.read)
  else none

/-- `Handler<any>::Read`. -/
def Any.read : Reader Any := do
  beginArray
  checkNext "invalid any json format"
  let typeName ← stringHandler.read
  match Any.reader typeName with
  | none => throw ("Typename " ++ typeName ++ " has not been registered via DMLC_JSON_ENABLE_ANY")
  | some reader =>
    checkNext "invalid any json format"
    let data ← reader
    checkLast "invalid any json format"
    return data

/-- The handler of `std::shared_ptr<any>`. -/
def anyHandler : Handler Any := ⟨fun data => writeChecked data.write, Any.read⟩

/-- `JSONNode`, with what is saved of its node. `G` are the subgraphs. -/
structure JSONNode (Op G : Type) where
  op : Option Op
  name : String
  dict : Std.ExtTreeMap String String
  inputs : List Entry
  controlDeps : List ℕ
  subgraphs : List G

/-- `JSONGraph`, with subgraphs of type `G`. -/
structure JSONGraphOf (Op G : Type) where
  nodes : List (JSONNode Op G)
  argNodes : List ℕ
  nodeRowPtr : List ℕ
  heads : List Entry
  attrs : Std.ExtTreeMap String Any

/-- The JSON graphs whose subgraphs are nested less than `n` deep. -/
def JSONGraph (Op : Type) : ℕ → Type
  | 0 => Empty
  | n + 1 => JSONGraphOf Op (JSONGraph Op n)

/-- The operators: their names, and `dmlc::Registry<Op>::Find`. -/
structure Operators (Op : Type) where
  name : Op → String
  find : String → Option Op

variable {Op G : Type}

/-- `std::map`, which gives its entries in the order of the keys. -/
def dictHandler : Handler (Std.ExtTreeMap String String) :=
  mapHandler Std.ExtTreeMap.toList stringHandler

/-- What `JSONNode::Load` reads. -/
structure NodeFields (G : Type) where
  op : String := ""
  name : String := ""
  inputs : List Entry := []
  dict : Std.ExtTreeMap String String := ∅
  controlDeps : List ℕ := []
  subgraphs : List G := []
  param : Std.ExtTreeMap String String := ∅
  backwardSourceId : ℤ := 0

/-- The fields that `JSONNode::Load` declares. -/
def nodeFields (h : Handler G) : List (FieldEntry (NodeFields G)) := [
  declareField "op" stringHandler fun r op => { r with op := op },
  declareField "name" stringHandler fun r name => { r with name := name },
  declareField "inputs" (arrayHandler true entryHandler) fun r inputs => { r with inputs := inputs },
  declareOptionalField "attrs" dictHandler fun r dict => { r with dict := dict },
  declareOptionalField "attr" dictHandler fun r dict => { r with dict := dict },
  declareOptionalField "control_deps" (arrayHandler true uint32Handler)
    fun r deps => { r with controlDeps := deps },
  declareOptionalField "subgraphs" (arrayHandler false h)
    fun r subgraphs => { r with subgraphs := subgraphs },
  declareOptionalField "param" dictHandler fun r param => { r with param := param },
  declareOptionalField "backward_source_id" intHandler
    fun r id => { r with backwardSourceId := id }]

/-- `Op::Get`, in `JSONNode::Load`. -/
def loadOp (c : Operators Op) (name opType : String) : Reader (Option Op) :=
  if opType ≠ "null" then
    match c.find opType with
    | some op => return some op
    | none => throw ("Failed loading Op " ++ name ++ " of type " ++ opType ++ ": Operator " ++ opType ++
        " is not registered")
  else return none

/-- `JSONNode::Save` and `JSONNode::Load`. -/
def nodeHandler (c : Operators Op) (h : Handler G) : Handler (JSONNode Op G) where
  write n := writeObject true (
    [("op", stringHandler.write (n.op.elim "null" c.name)), ("name", stringHandler.write n.name)] ++
    (if n.dict.size ≠ 0 then [("attrs", dictHandler.write n.dict)] else []) ++
    [("inputs", (arrayHandler true entryHandler).write n.inputs)] ++
    (if n.controlDeps.length ≠ 0 then
      [("control_deps", (arrayHandler true uint32Handler).write n.controlDeps)] else []) ++
    (if n.subgraphs.length ≠ 0 then
      [("subgraphs", (arrayHandler false h).write n.subgraphs)] else []))
  read := do
    let r ← readAllFields (nodeFields h) {}
    let op ← loadOp c r.name r.op
    return {
      op := op, name := r.name, inputs := r.inputs
      dict := r.param.foldl (fun dict key value => dict.insertIfNew key value) r.dict
      controlDeps := r.controlDeps, subgraphs := r.subgraphs }

/-- The fields that `JSONGraph::Load` declares. -/
def graphFields (c : Operators Op) (order : Std.ExtTreeMap String Any → List (String × Any))
    (h : Handler G) : List (FieldEntry (JSONGraphOf Op G)) := [
  declareField "nodes" (arrayHandler false (nodeHandler c h)) fun g nodes => { g with nodes := nodes },
  declareField "arg_nodes" (arrayHandler true uint32Handler) fun g args => { g with argNodes := args },
  declareField "heads" (arrayHandler true entryHandler) fun g heads => { g with heads := heads },
  declareOptionalField "node_row_ptr" (arrayHandler true uint32Handler)
    fun g ptr => { g with nodeRowPtr := ptr },
  declareOptionalField "attrs" (mapHandler order anyHandler) fun g attrs => { g with attrs := attrs }]

/-- `JSONGraph::Save` and `JSONGraph::Load`, for the subgraphs of `h`. The attributes come in the
order of an `std::unordered_map`. -/
def graphOfHandler (c : Operators Op) (order : Std.ExtTreeMap String Any → List (String × Any))
    (h : Handler G) : Handler (JSONGraphOf Op G) where
  write g := writeObject true (
    [("nodes", (arrayHandler false (nodeHandler c h)).write g.nodes),
      ("arg_nodes", (arrayHandler true uint32Handler).write g.argNodes),
      ("node_row_ptr", (arrayHandler true uint32Handler).write g.nodeRowPtr),
      ("heads", (arrayHandler true entryHandler).write g.heads)] ++
    (if g.attrs.size ≠ 0 then [("attrs", (mapHandler order anyHandler).write g.attrs)] else []))
  read := readAllFields (graphFields c order h) ⟨[], [], [], [], ∅⟩

/-- `JSONGraph::Save` and `JSONGraph::Load`. -/
def graphHandler (c : Operators Op) (order : Std.ExtTreeMap String Any → List (String × Any)) :
    (n : ℕ) → Handler (JSONGraph Op n)
  | 0 => ⟨fun g => Empty.elim g, throw "the subgraphs are nested too deep"⟩
  | n + 1 => graphOfHandler c order (graphHandler c order n)

/-! ## What is saved is loaded -/

section Arrays
variable {f : List ℕ} {k : ℕ} {m : String} {multi : List Bool}

theorem reads_nextFirst {c : Char} (hc : isspace c = false) (hne : c ≠ ']') :
    Reads nextArrayItem (0 :: f) (1 :: f) [] (fun rest => rest.head? = some c) true :=
  reads_nextItem (reads_isNext_first spaces_nil hc hne)

theorem reads_nextComma : Reads nextArrayItem ((k + 1) :: f) ((k + 2) :: f) [','] Anything true :=
  reads_nextItem (reads_isNext_next spaces_nil (by decide))

theorem reads_nextEnd : Reads nextArrayItem (k :: f) f [']'] Anything false :=
  reads_nextItem (reads_isNext_last spaces_nil rfl)

theorem reads_checkFirst {c : Char} (hc : isspace c = false) (hne : c ≠ ']') :
    Reads (checkNext m) (0 :: f) (1 :: f) [] (fun rest => rest.head? = some c) () := by
  have hpass : Reads (check true fun _ => m) (1 :: f) (1 :: f) []
      (fun rest => rest.head? = some c) () := (reads_check rfl).follow fun _ _ => trivial
  exact (reads_nextFirst hc hne).bind hpass fun rest hrest => hrest

theorem reads_checkComma : Reads (checkNext m) ((k + 1) :: f) ((k + 2) :: f) [','] Anything () :=
  reads_nextComma.bind (k := fun next => check next fun _ => m) (reads_check rfl) fun _ _ => trivial

theorem reads_checkLast : Reads (checkLast m) (k :: f) f [']'] Anything () :=
  reads_nextEnd.bind (k := fun next => check (!next) fun _ => m) (reads_check rfl) fun _ _ => trivial

theorem spaces_blank : Spaces [' '] := fun c hc => by simp_all [isspace]

/-- What stands behind a value in an array. -/
theorem endsNumber_comma (l rest : List Char) : EndsNumber (([','] ++ l) ++ rest) := fun c hc => by
  obtain rfl : ',' = c := by simpa using hc
  rfl

theorem endsNumber_bracket (rest : List Char) : EndsNumber ([']'] ++ rest) := fun c hc => by
  obtain rfl : ']' = c := by simpa using hc
  rfl

theorem head_value {t : List Char} (ht : IsValue t) : ∃ c, isspace c = false ∧ c ≠ ']' ∧
    ∀ rest, (t ++ rest).head? = some c := by
  obtain ⟨c, l, rfl, hc, hne, -⟩ := ht
  exact ⟨c, hc, hne, fun _ => rfl⟩

end Arrays

/-- The numbers of an entry are of 32 bits. -/
structure Entry.Fits (e : Entry) : Prop where
  nodeId : e.nodeId < 2 ^ 32
  index : e.index < 2 ^ 32
  version : e.version < 2 ^ 32

theorem entry_roundTrips {e : Entry} (he : e.Fits) : entryHandler.RoundTrips e := by
  intro multi
  obtain ⟨t₁, hv₁, hw₁, hr₁⟩ := unsigned_roundTrips he.nodeId (false :: multi)
  obtain ⟨t₂, hv₂, hw₂, hr₂⟩ := unsigned_roundTrips he.index (false :: multi)
  obtain ⟨t₃, hv₃, hw₃, hr₃⟩ := unsigned_roundTrips he.version (false :: multi)
  have hwrites : List.Forall₂ (fun w t => WritesItem (false :: multi) (writeArrayItem w) t)
      [uint32Handler.write e.nodeId, uint32Handler.write e.index, uint32Handler.write e.version]
      [t₁, t₂, t₃] :=
    List.Forall₂.cons (writesItem_array hw₁) (List.Forall₂.cons (writesItem_array hw₂)
      (List.Forall₂.cons (writesItem_array hw₃) List.Forall₂.nil))
  refine ⟨'[' :: closingText ']' false multi [t₁, t₂, t₃], ⟨'[', _, rfl, rfl, by decide, by decide⟩,
    fun counts => writes_scope hwrites, fun sp f hsp => ?_⟩
  have htext : sp ++ '[' :: closingText ']' false multi [t₁, t₂, t₃] =
      (sp ++ ['[']) ++ ([] ++ (([] ++ t₁) ++ ([','] ++ (([' '] ++ t₂) ++ ([','] ++
        (([' '] ++ t₃) ++ [']'])))))) := by
    simp [closingText, itemsText, seperator]
  obtain ⟨c, hc, hne, hhead⟩ := head_value hv₁
  rw [htext]
  apply (reads_beginScope hsp rfl).bind ?_ fun _ _ => trivial
  apply (reads_checkFirst hc hne).bind ?_ fun rest _ => by
    rw [List.nil_append, List.append_assoc]
    exact hhead _
  apply (hr₁ [] (1 :: f) spaces_nil).bind ?_ fun rest _ => endsNumber_comma _ rest
  apply reads_checkComma.bind ?_ fun _ _ => trivial
  apply (hr₂ [' '] (2 :: f) spaces_blank).bind ?_ fun rest _ => endsNumber_comma _ rest
  apply reads_nextComma.bind ?_ fun _ _ => trivial
  apply (hr₃ [' '] (3 :: f) spaces_blank).bind ?_ fun rest _ => endsNumber_bracket rest
  exact reads_checkLast.bind_pure.follow fun _ _ => trivial

/-- `Write` finds the scopes as it left them. -/
theorem writes_checked {w : Writer Unit} {counts : List ℕ} {multi : List Bool} {t : List Char}
    (h : Writes w (counts, multi) (counts, multi) t) :
    Writes (writeChecked w) (counts, multi) (counts, multi) t := by
  intro s hs
  obtain ⟨s', hrun, htext, hframe⟩ := h s hs
  have hmulti : s.scopeMultiLine = s'.scopeMultiLine :=
    (congrArg Prod.snd hs).trans (congrArg Prod.snd hframe).symm
  exact ⟨s', by simp [writeChecked, hrun, hmulti], htext, hframe⟩

/-- The name of the type and the value are read back. -/
theorem typed_roundTrips {β : Type} {typeName : String} {h : Handler β} {x : β} {wrap : β → Any}
    (hread : Any.reader typeName = some (wrap <$> h.read)) (hx : h.RoundTrips x) {data : Any}
    (hwrite : data.write = writeTyped typeName (h.write x)) (hdata : data = wrap x) :
    anyHandler.RoundTrips data := by
  intro multi
  obtain ⟨t₁, hv₁, hw₁, hr₁⟩ := string_roundTrips typeName (false :: multi)
  obtain ⟨t₂, hv₂, hw₂, hr₂⟩ := hx (false :: multi)
  have hwrites : List.Forall₂ (fun w t => WritesItem (false :: multi) (writeArrayItem w) t)
      [stringHandler.write typeName, writeChecked (h.write x)] [t₁, t₂] :=
    List.Forall₂.cons (writesItem_array hw₁) (List.Forall₂.cons
      (writesItem_array fun counts => writes_checked (hw₂ counts)) List.Forall₂.nil)
  refine ⟨'[' :: closingText ']' false multi [t₁, t₂], ⟨'[', _, rfl, rfl, by decide, by decide⟩,
    fun counts => ?_, fun sp f hsp => ?_⟩
  · apply writes_checked
    rw [hwrite]
    exact writes_scope hwrites
  have htext : sp ++ '[' :: closingText ']' false multi [t₁, t₂] =
      (sp ++ ['[']) ++ ([] ++ (([] ++ t₁) ++ ([','] ++ (([' '] ++ t₂) ++ [']'])))) := by
    simp [closingText, itemsText, seperator]
  obtain ⟨c, hc, hne, hhead⟩ := head_value hv₁
  rw [htext, hdata]
  apply (reads_beginScope hsp rfl).bind ?_ fun _ _ => trivial
  apply (reads_checkFirst hc hne).bind ?_ fun rest _ => by
    rw [List.nil_append, List.append_assoc]
    exact hhead _
  apply (hr₁ [] (1 :: f) spaces_nil).bind ?_ fun rest _ => endsNumber_comma _ rest
  rw [hread]
  apply reads_checkComma.bind ?_ fun _ _ => trivial
  apply (hr₂ [' '] (2 :: f) spaces_blank).map.bind ?_ fun rest _ => endsNumber_bracket rest
  exact reads_checkLast.bind_pure.follow fun _ _ => trivial

/-- The values of the five types that are read and written here, with numbers of the range of their
type. -/
def Any.Registered : Any → Prop
  | str _ | listStr _ => True
  | listInt l => ∀ z ∈ l, -2 ^ 31 ≤ z ∧ z < 2 ^ 31
  | int z => -2 ^ 31 ≤ z ∧ z < 2 ^ 31
  | size n => n < 2 ^ 64
  | bool _ | other _ => False

theorem any_roundTrips {data : Any} (h : data.Registered) : anyHandler.RoundTrips data := by
  cases data with
  | str s => exact typed_roundTrips (by rfl) (string_roundTrips s) rfl rfl
  | listInt l =>
    have hl : (arrayHandler true intHandler).RoundTrips l :=
      array_roundTrips fun z hz => int_roundTrips (h z hz).1 (h z hz).2
    exact typed_roundTrips (by rfl) hl rfl rfl
  | listStr l =>
    have hl : (arrayHandler false stringHandler).RoundTrips l :=
      array_roundTrips fun s _ => string_roundTrips s
    exact typed_roundTrips (by rfl) hl rfl rfl
  | int z => exact typed_roundTrips (by rfl) (int_roundTrips h.1 h.2) rfl rfl
  | size n => exact typed_roundTrips (by rfl) (unsigned_roundTrips h) rfl rfl
  | bool b => exact h.elim
  | other type => exact h.elim

/-- What is asked of a node: its operator is found by its name, its keys are clean, its numbers are
of 32 bits. -/
structure JSONNode.Savable (c : Operators Op) (n : JSONNode Op G) : Prop where
  op : ∀ op ∈ n.op, c.name op ≠ "null" ∧ c.find (c.name op) = some op
  dict : ∀ kv ∈ n.dict.toList, CleanKey kv.1
  inputs : ∀ e ∈ n.inputs, e.Fits
  controlDeps : ∀ d ∈ n.controlDeps, d < 2 ^ 32

theorem dict_roundTrips {dict : Std.ExtTreeMap String String}
    (h : ∀ kv ∈ dict.toList, CleanKey kv.1) : dictHandler.RoundTrips dict :=
  map_roundTrips (List.Perm.refl _) fun kv hkv => ⟨h kv hkv, string_roundTrips kv.2⟩

theorem eq_empty_of_size {β : Type} {map : Std.ExtTreeMap String β} (h : ¬ map.size ≠ 0) : map = ∅ := by
  have hsize : map.size = 0 := not_not.mp h
  rwa [Std.ExtTreeMap.eq_empty_iff_size_eq_zero]

theorem reads_loadOp {c : Operators Op} {op : Option Op} {f : List ℕ}
    (hop : ∀ o ∈ op, c.name o ≠ "null" ∧ c.find (c.name o) = some o) (name : String) :
    Reads (loadOp c name (op.elim "null" c.name)) f f [] EndsNumber op := by
  cases op with
  | none => exact Reads.pure
  | some o =>
    obtain ⟨hne, hfind⟩ := hop o rfl
    simp only [Option.elim_some, loadOp, if_pos hne, hfind]
    exact Reads.pure

theorem entries_roundTrip {entries : List Entry} (h : ∀ e ∈ entries, e.Fits) :
    (arrayHandler true entryHandler).RoundTrips entries :=
  array_roundTrips fun e he => entry_roundTrips (h e he)

theorem numbers_roundTrip {numbers : List ℕ} (h : ∀ d ∈ numbers, d < 2 ^ 32) :
    (arrayHandler true uint32Handler).RoundTrips numbers :=
  array_roundTrips fun d hd => unsigned_roundTrips (h d hd)

theorem node_roundTrips {c : Operators Op} {h : Handler G} {n : JSONNode Op G} (hn : n.Savable c)
    (hsub : ∀ g ∈ n.subgraphs, h.RoundTrips g) : (nodeHandler c h).RoundTrips n := by
  have hop := fieldsTrip_one (r := {}) (nodeFields h) "op" stringHandler
    (fun r op => { r with op := op }) rfl (CleanKey.of_all rfl)
    (string_roundTrips (n.op.elim "null" c.name))
  have hname := hop.append (fieldsTrip_one (nodeFields h) "name" stringHandler
    (fun r name => { r with name := name }) rfl (CleanKey.of_all rfl) (string_roundTrips n.name))
  have hdict := hname.append (fieldsTrip_optional (c := n.dict.size ≠ 0) (nodeFields h) "attrs"
    dictHandler (fun r dict => { r with dict := dict }) rfl (CleanKey.of_all rfl)
    (dict_roundTrips hn.dict) fun hsize => by rw [eq_empty_of_size hsize])
  have hinputs := hdict.append (fieldsTrip_one (nodeFields h) "inputs" (arrayHandler true entryHandler)
    (fun r inputs => { r with inputs := inputs }) rfl (CleanKey.of_all rfl)
    (entries_roundTrip hn.inputs))
  have hdeps := hinputs.append (fieldsTrip_optional (c := n.controlDeps.length ≠ 0) (nodeFields h)
    "control_deps" (arrayHandler true uint32Handler) (fun r deps => { r with controlDeps := deps }) rfl
    (CleanKey.of_all rfl) (numbers_roundTrip hn.controlDeps)
    fun hlen => by rw [List.length_eq_zero_iff.mp (not_not.mp hlen)])
  have hsubgraphs := hdeps.append (fieldsTrip_optional (c := n.subgraphs.length ≠ 0) (nodeFields h)
    "subgraphs" (arrayHandler false h) (fun r subgraphs => { r with subgraphs := subgraphs }) rfl
    (CleanKey.of_all rfl) (array_roundTrips hsub)
    fun hlen => by rw [List.length_eq_zero_iff.mp (not_not.mp hlen)])
  intro multi
  obtain ⟨text, hvalue, hwrite, hread⟩ := allFields_trip hsubgraphs (by
    simp [nodeFields, declareField, declareOptionalField]) true multi
  refine ⟨text, hvalue, hwrite, fun sp f hsp => ?_⟩
  rw [← List.append_nil (sp ++ text)]
  apply (hread sp f hsp).bind ?_ fun rest hrest => hrest
  have hload := (reads_loadOp (f := f) hn.op n.name).bind_pure (g := fun op => ({
    op := op, name := n.name, inputs := n.inputs, dict := n.dict, controlDeps := n.controlDeps
    subgraphs := n.subgraphs } : JSONNode Op G))
  have hempty : (∅ : Std.ExtTreeMap String String).toList = [] :=
    Std.ExtTreeMap.toList_eq_nil_iff.mpr rfl
  simpa [Std.ExtTreeMap.foldl_eq_foldl_toList, hempty] using hload

/-- What is asked of a JSON graph. -/
structure JSONGraphOf.Savable (c : Operators Op) (g : JSONGraphOf Op G) : Prop where
  nodes : ∀ n ∈ g.nodes, n.Savable c
  argNodes : ∀ d ∈ g.argNodes, d < 2 ^ 32
  nodeRowPtr : ∀ d ∈ g.nodeRowPtr, d < 2 ^ 32
  heads : ∀ e ∈ g.heads, e.Fits
  attrs : ∀ kv ∈ g.attrs.toList, CleanKey kv.1 ∧ kv.2.Registered

variable {order : Std.ExtTreeMap String Any → List (String × Any)}

theorem graphOf_roundTrips {c : Operators Op} {h : Handler G} {g : JSONGraphOf Op G}
    (horder : (order g.attrs).Perm g.attrs.toList) (hg : g.Savable c)
    (hsub : ∀ n ∈ g.nodes, ∀ sub ∈ n.subgraphs, h.RoundTrips sub) :
    (graphOfHandler c order h).RoundTrips g := by
  have hnodes := fieldsTrip_one (r := ⟨[], [], [], [], ∅⟩) (graphFields c order h) "nodes"
    (arrayHandler false (nodeHandler c h)) (fun g nodes => { g with nodes := nodes }) rfl
    (CleanKey.of_all rfl) (array_roundTrips fun n hn => node_roundTrips (hg.nodes n hn) (hsub n hn))
  have hargs := hnodes.append (fieldsTrip_one (graphFields c order h) "arg_nodes"
    (arrayHandler true uint32Handler) (fun g args => { g with argNodes := args }) rfl
    (CleanKey.of_all rfl) (numbers_roundTrip hg.argNodes))
  have hptr := hargs.append (fieldsTrip_one (graphFields c order h) "node_row_ptr"
    (arrayHandler true uint32Handler) (fun g ptr => { g with nodeRowPtr := ptr }) rfl
    (CleanKey.of_all rfl) (numbers_roundTrip hg.nodeRowPtr))
  have hheads := hptr.append (fieldsTrip_one (graphFields c order h) "heads"
    (arrayHandler true entryHandler) (fun g heads => { g with heads := heads }) rfl
    (CleanKey.of_all rfl) (entries_roundTrip hg.heads))
  have hattrs := hheads.append (fieldsTrip_optional (c := g.attrs.size ≠ 0) (graphFields c order h)
    "attrs" (mapHandler order anyHandler) (fun g attrs => { g with attrs := attrs }) rfl
    (CleanKey.of_all rfl) (map_roundTrips horder fun kv hkv =>
      ⟨(hg.attrs kv hkv).1, any_roundTrips (hg.attrs kv hkv).2⟩)
    fun hsize => by rw [eq_empty_of_size hsize])
  intro multi
  exact allFields_trip hattrs (by
    simp [graphFields, declareField, declareOptionalField]) true multi

/-- What is asked of a JSON graph and of all its subgraphs. -/
def Savable (c : Operators Op) : (n : ℕ) → JSONGraph Op n → Prop
  | 0, _ => False
  | n + 1, g => JSONGraphOf.Savable c g ∧
      ∀ node ∈ JSONGraphOf.nodes g, ∀ sub ∈ JSONNode.subgraphs node, Savable c n sub

theorem graph_roundTrips {c : Operators Op} (horder : ∀ attrs, (order attrs).Perm attrs.toList) {n : ℕ}
    {g : JSONGraph Op n} (hg : Savable c n g) : (graphHandler c order n).RoundTrips g := by
  induction n with
  | zero => exact hg.elim
  | succ n ih =>
    exact graphOf_roundTrips (horder _) hg.1 fun node hnode sub hsub => ih (hg.2 node hnode sub hsub)

/-- The text of a JSON graph, with a writer of its own. -/
def saveText (c : Operators Op) (order : Std.ExtTreeMap String Any → List (String × Any)) (n : ℕ)
    (g : JSONGraph Op n) : Except String String :=
  ((graphHandler c order n).write g {}).map fun p => String.ofList p.2.os

/-- The JSON graph of a text, with a reader of its own. -/
def loadText (c : Operators Op) (order : Std.ExtTreeMap String Any → List (String × Any)) (n : ℕ)
    (text : String) : Except String (JSONGraph Op n) :=
  ((graphHandler c order n).read { is := text.toList }).map Prod.fst

/-- What one writer writes, one reader reads to its end. -/
theorem exists_text {c : Operators Op} (horder : ∀ attrs, (order attrs).Perm attrs.toList) {n : ℕ}
    {g : JSONGraph Op n} (hg : Savable c n g) :
    ∃ w s, (graphHandler c order n).write g {} = .ok ((), w) ∧
      (graphHandler c order n).read { is := w.os } = .ok (g, s) := by
  obtain ⟨text, -, hwrite, hread⟩ := graph_roundTrips horder hg []
  obtain ⟨w, hw, hos, -⟩ := hwrite [] {} rfl
  have hend : EndsNumber [] := fun c hc => by simp at hc
  have hinput : Source.input ({ is := w.os } : JSONReader) = ([] ++ text) ++ [] := by
    rw [List.append_nil]
    exact hos
  obtain ⟨s, hs, -⟩ := hread [] [] spaces_nil { is := w.os } [] hinput rfl hend
  exact ⟨w, s, hw, hs⟩

/-- A JSON graph is loaded from its text as it was saved. -/
theorem loadText_saveText {c : Operators Op} (horder : ∀ attrs, (order attrs).Perm attrs.toList)
    {n : ℕ} {g : JSONGraph Op n} (hg : Savable c n g) :
    ∃ text, saveText c order n g = .ok text ∧ loadText c order n text = .ok g := by
  obtain ⟨w, s, hwrite, hread⟩ := exists_text horder hg
  apply Exists.intro (String.ofList w.os)
  constructor
  · rw [saveText, hwrite]
    rfl
  · rw [loadText, String.toList_ofList, hread]
    rfl

theorem eq_of_mem_insert {β : Type} {key : String} {value : β} {kv : String × β}
    (hkv : kv ∈ ((∅ : Std.ExtTreeMap String β).insert key value).toList) : kv = (key, value) := by
  have hget := Std.ExtTreeMap.mem_toList_iff_getElem?_eq_some.mp hkv
  have hkey : kv.1 = key := by
    by_contra hne
    simp [Ne.symm hne] at hget
  rw [hkey, Std.ExtTreeMap.getElem?_insert_self] at hget
  exact Prod.ext hkey (Option.some.inj hget).symm

/-- A variable that is the input of a loop over a subgraph. -/
def loopGraph : JSONGraph String 2 :=
  ⟨[⟨none, "data", ∅, [], [], []⟩,
    ⟨some "_foreach", "loop \"0\"\n", (∅ : Std.ExtTreeMap String String).insert "axis" "0",
      [⟨0, 0, 0⟩], [0], [(⟨[⟨none, "x", ∅, [], [], []⟩], [0], [0, 1], [⟨0, 0, 0⟩], ∅⟩ :
        JSONGraphOf String Empty)]⟩],
    [0], [0, 1, 2], [⟨1, 0, 0⟩], (∅ : Std.ExtTreeMap String Any).insert "mxnet_version" (.int 10600)⟩

theorem loadText_saveText_loop : ∃ text,
    saveText (⟨id, some⟩ : Operators String) Std.ExtTreeMap.toList 2 loopGraph = .ok text ∧
      loadText (⟨id, some⟩ : Operators String) Std.ExtTreeMap.toList 2 text = .ok loopGraph := by
  apply loadText_saveText fun attrs => List.Perm.refl _
  have hentry : ∀ i, i < 2 → (⟨i, 0, 0⟩ : Entry).Fits := fun i hi =>
    ⟨by dsimp only; omega, by simp, by simp⟩
  have hempty : ∀ kv ∈ (∅ : Std.ExtTreeMap String String).toList, CleanKey kv.1 := by simp
  have hvariable : ∀ name, (⟨none, name, ∅, [], [], []⟩ : JSONNode String (JSONGraph String 1)).Savable
      ⟨id, some⟩ := fun name => ⟨by simp, hempty, by simp, by simp⟩
  have hinner : ∀ name, (⟨none, name, ∅, [], [], []⟩ : JSONNode String Empty).Savable
      ⟨id, some⟩ := fun name => ⟨by simp, hempty, by simp, by simp⟩
  have hsub : Savable (⟨id, some⟩ : Operators String) 1 (⟨[⟨none, "x", ∅, [], [], []⟩], [0], [0, 1],
      [⟨0, 0, 0⟩], ∅⟩ : JSONGraphOf String Empty) := by
    refine ⟨⟨List.forall_mem_singleton.mpr (hinner "x"), by simp, by simp, ?_, by simp⟩, ?_⟩
    · simpa using hentry 0 (by decide)
    · exact List.forall_mem_singleton.mpr fun sub hsub => absurd hsub List.not_mem_nil
  have hloop : ∀ name sub, (⟨some "_foreach", name, (∅ : Std.ExtTreeMap String String).insert "axis" "0",
      [⟨0, 0, 0⟩], [0], sub⟩ : JSONNode String (JSONGraph String 1)).Savable ⟨id, some⟩ := by
    intro name sub
    refine ⟨by simp, ?_, by simpa using hentry 0 (by decide), by simp⟩
    intro kv hkv
    rw [eq_of_mem_insert hkv]
    exact CleanKey.of_all rfl
  refine ⟨⟨?_, by simp [loopGraph], by simp [loopGraph], ?_, ?_⟩, ?_⟩
  · simpa [loopGraph] using ⟨hvariable "data", hloop _ _⟩
  · simpa [loopGraph] using hentry 1 (by decide)
  · intro kv hkv
    rw [eq_of_mem_insert hkv]
    exact ⟨CleanKey.of_all rfl, by decide, by decide⟩
  · refine List.forall_mem_cons.mpr ⟨fun sub hmem => absurd hmem List.not_mem_nil, ?_⟩
    exact List.forall_mem_singleton.mpr (List.forall_mem_singleton.mpr hsub)

end SaveLoadJson
end NetStorm
