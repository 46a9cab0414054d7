import NetStorm.Json
import Std.Data.ExtTreeMap
import Mathlib.Algebra.Ring.Int.Defs
import Mathlib.Algebra.Ring.Nat
import Mathlib.Data.List.Dedup

/-!
# Handlers of JSON

The handlers of dmlc for the types that are saved, and `JSONObjectReadHelper`. What a handler
writes, in any scopes, it reads back. The keys of objects are written as they are, so they must not
hold a quote, a backslash or the end of a line.
-/
namespace NetStorm
namespace Json
open RoundTrip

/-- `json::Handler`. -/
structure Handler (α : Type) where
  write : α → Writer Unit
  read : Reader α

section Handlers
variable {α ρ : Type}

/-- What is written of `x`, in any scopes, is read back as `x`. -/
def Handler.RoundTrips (h : Handler α) (x : α) : Prop :=
  ∀ multi, ∃ text, IsValue text ∧
    (∀ counts, Writes (h.write x) (counts, multi) (counts, multi) text) ∧
    ∀ sp f, Spaces sp → Reads h.read f f (sp ++ text) EndsNumber x

/-- `Handler<std::string>`. -/
def stringHandler : Handler String := ⟨writeString, readString⟩

/-- The unsigned type of this many bits. A sign is taken modulo its range. -/
def unsignedValue (bits : ℕ) (negative : Bool) (n : ℕ) : Option ℕ :=
  if n < 2 ^ bits then some (if negative then (2 ^ bits - n) % 2 ^ bits else n) else none

/-- `NumericHandler` of `uint32_t` and `size_t`. -/
def unsignedHandler (bits : ℕ) : Handler ℕ :=
  ⟨fun n => writeNumber n, readNumber (unsignedValue bits)⟩

def uint32Handler : Handler ℕ := unsignedHandler 32
def sizeHandler : Handler ℕ := unsignedHandler 64

/-- The values of `int`. -/
def intValue (negative : Bool) (n : ℕ) : Option ℤ :=
  if negative then if n ≤ 2 ^ 31 then some (-n) else none
  else if n < 2 ^ 31 then some n else none

/-- `NumericHandler<int>`. -/
def intHandler : Handler ℤ := ⟨writeNumber, readNumber intValue⟩

/-- `array->insert(array->end(), value)` of the next value. -/
def appendItem (h : Handler α) (array : List α) : Reader (List α) := do return array ++ [← h.read]

/-- `ArrayHandler`. -/
def arrayHandler (pod : Bool) (h : Handler α) : Handler (List α) where
  write array := writeArray (array.length > 10 || !pod) (array.map h.write)
  read := do
    beginArray
    readItems (arrayItem (appendItem h)) []

/-- `(*map)[key] = value` of the next value. -/
def insertItem (h : Handler α) (key : String) (map : Std.ExtTreeMap String α) :
    Reader (Std.ExtTreeMap String α) := do return map.insert key (← h.read)

/-- `MapHandler`. The map gives its entries in an order of its own. -/
def mapHandler (entries : Std.ExtTreeMap String α → List (String × α)) (h : Handler α) :
    Handler (Std.ExtTreeMap String α) where
  write map := writeObject (map.size > 1) ((entries map).map fun kv => (kv.1, h.write kv.2))
  read := do
    beginObject
    readItems (objectItem (insertItem h)) ∅

/-- `JSONObjectReadHelper::Entry`, with the key it is declared for. -/
structure FieldEntry (ρ : Type) where
  key : String
  optional : Bool
  read : ρ → Reader ρ

/-- `DeclareField`, where `store` writes to the address. -/
def declareField (key : String) (h : Handler α) (store : ρ → α → ρ) : FieldEntry ρ :=
  ⟨key, false, fun r => do return store r (← h.read)⟩

/-- `DeclareOptionalField`. -/
def declareOptionalField (key : String) (h : Handler α) (store : ρ → α → ρ) : FieldEntry ρ :=
  ⟨key, true, fun r => do return store r (← h.read)⟩

/-- The loop of `ReadAllFields`, on one key. -/
def readField (fields : List (FieldEntry ρ)) (key : String) (r : List String × ρ) :
    Reader (List String × ρ) := do
  match fields.find? (·.key = key) with
  | some field => return (key :: r.1, ← field.read r.2)
  | none => throw ("JSONReader: Unknown field " ++ key ++ ", candidates are: \n" ++
      String.join ((fields.mergeSort (·.key ≤ ·.key)).map fun field => "\"" ++ field.key ++ "\"\n"))

/-- The last check of `ReadAllFields`. -/
def checkFields (fields : List (FieldEntry ρ)) (visited : List String) : Reader Unit := do
  if visited.dedup.length ≠ fields.length then
    (fields.mergeSort (·.key ≤ ·.key)).forM fun field =>
      check (field.optional || visited.contains field.key) fun s =>
        "JSONReader: Missing field \"" ++ field.key ++ "\"\n At " ++ lineInfo s

/-- `ReadAllFields`. -/
def readAllFields (fields : List (FieldEntry ρ)) (r : ρ) : Reader ρ := do
  beginObject
  let (visited, r) ← readItems (objectItem (readField fields)) ([], r)
  checkFields fields visited
  return r

/-! ### What is written is read back -/

variable {multi : List Bool}

theorem string_roundTrips (x : String) : stringHandler.RoundTrips x := by
  intro multi
  refine ⟨'"' :: (x.toList.flatMap escape ++ ['"']), ⟨'"', _, rfl, rfl, by decide, by decide⟩, ?_, ?_⟩
  · intro counts
    exact (writes_extend ['"']).seq ((writes_extend _).seq (writes_extend ['"']))
  · intro sp f hsp
    exact (reads_string hsp x).follow fun _ _ => trivial

theorem number_roundTrips {h : Handler α} {value : Bool → ℕ → Option α} {x : α} (negative : Bool)
    (n : ℕ) (hwrite : h.write x = extend (numberText negative n)) (hread : h.read = readNumber value)
    (hx : value negative n = some x) : h.RoundTrips x := by
  intro multi
  obtain ⟨c, l, htext, hc, hne, hne', -⟩ := numberText_eq_cons negative n
  rw [hwrite, hread]
  exact ⟨numberText negative n, ⟨c, l, htext, hc, hne, hne'⟩, fun _ => writes_extend _,
    fun sp f hsp => reads_readNumber hsp hx⟩

theorem unsigned_roundTrips {bits x : ℕ} (hx : x < 2 ^ bits) :
    (unsignedHandler bits).RoundTrips x := by
  have hpos : ¬ (x : ℤ) < 0 := by omega
  refine number_roundTrips false x ?_ rfl ?_
  · simp [unsignedHandler, writeNumber, hpos]
  · simp [unsignedValue, hx]

theorem int_roundTrips {x : ℤ} (hlow : -2 ^ 31 ≤ x) (hhigh : x < 2 ^ 31) :
    intHandler.RoundTrips x := by
  apply number_roundTrips (x < 0) x.natAbs rfl rfl
  by_cases hx : x < 0
  · have habs : x.natAbs ≤ 2 ^ 31 := by omega
    have hneg : -(x.natAbs : ℤ) = x := by omega
    rw [intValue, decide_eq_true hx, if_pos rfl, if_pos habs, hneg]
  · have habs : x.natAbs < 2 ^ 31 := by omega
    have hpos : (x.natAbs : ℤ) = x := by omega
    rw [intValue, decide_eq_false hx, if_neg (by simp), if_pos habs, hpos]

/-- The array grows by the item that is read. -/
theorem itemTrips_array {h : Handler α} {x : α} (hx : h.RoundTrips x) (xs : List α) :
    ItemTrips multi (writeArrayItem (h.write x)) (appendItem h) xs (xs ++ [x]) := by
  obtain ⟨t, hvalue, hwrite, hread⟩ := hx multi
  exact ⟨t, hvalue, writesItem_array hwrite, fun f sp hsp => (hread sp f hsp).bind_pure⟩

theorem itemsTrip_array {h : Handler α} {xs : List α} (hxs : ∀ x ∈ xs, h.RoundTrips x)
    (acc : List α) :
    ItemsTrip multi writeArrayItem (appendItem h) (xs.map h.write) acc (acc ++ xs) := by
  induction xs generalizing acc with
  | nil =>
    rw [List.append_nil]
    exact ItemsTrip.nil
  | cons x xs ih =>
    have hrest := ih (fun y hy => hxs y (List.mem_cons_of_mem _ hy)) (acc ++ [x])
    rw [List.append_assoc] at hrest
    exact ItemsTrip.cons (itemTrips_array (hxs x List.mem_cons_self) acc) hrest

theorem array_roundTrips {pod : Bool} {h : Handler α} {xs : List α}
    (hxs : ∀ x ∈ xs, h.RoundTrips x) : (arrayHandler pod h).RoundTrips xs := by
  intro multi
  have htrip : ItemsTrip ((xs.length > 10 || !pod) :: multi) writeArrayItem (appendItem h)
      (xs.map h.write) [] xs := itemsTrip_array hxs []
  obtain ⟨text, hvalue, hwrite, hread⟩ := htrip.scope '[' (loopsOver_array _) rfl (by decide)
  exact ⟨text, hvalue, hwrite, fun sp f hsp => (hread sp f hsp).follow fun _ _ => trivial⟩

/-- A key and its value. -/
theorem itemTrips_object {ρ : Type} {key : String} (hkey : CleanKey key) {h : Handler α} {x : α}
    (hx : h.RoundTrips x) {step : String → ρ → Reader ρ} {r : ρ} {store : α → ρ}
    (hstep : step key r = do return store (← h.read)) :
    ItemTrips multi (writeObjectKeyValue key (h.write x))
      (fun r => do let key ← readKey; step key r) r (store x) := by
  obtain ⟨t, hvalue, hwrite, hread⟩ := hx multi
  refine ⟨_, ⟨'"', _, rfl, rfl, by decide, by decide⟩, writesItem_object hwrite, ?_⟩
  intro f sp hsp
  have hspace : Spaces [' '] := fun c hc => by simp_all [isspace]
  have hvalue : Reads (step key r) f f ([' '] ++ t) EndsNumber (store x) := by
    rw [hstep]
    exact (hread [' '] f hspace).bind_pure
  have hboth := (reads_readKey (f := f) hsp hkey).bind (k := fun key => step key r) hvalue
    fun _ _ => trivial
  simpa using hboth

theorem foldl_insert_perm {entries : List (String × α)} {map : Std.ExtTreeMap String α}
    (h : entries.Perm map.toList) :
    entries.foldl (fun map kv => map.insert kv.1 kv.2) ∅ = map := by
  have hdistinct : entries.Pairwise fun a b => ¬ compare a.1 b.1 = .eq := by
    apply (h.pairwise_iff ?_).mpr Std.ExtTreeMap.distinct_keys_toList
    intro a b hab hba
    exact hab (Std.OrientedCmp.eq_symm hba)
  rw [← Std.ExtTreeMap.ofList_eq_foldl]
  apply Std.ExtTreeMap.ext_getElem?
  intro key
  cases hkey : map[key]? with
  | some x =>
    have hmem : (key, x) ∈ entries :=
      h.mem_iff.mpr (Std.ExtTreeMap.mem_toList_iff_getElem?_eq_some.mpr hkey)
    exact Std.ExtTreeMap.getElem?_ofList_of_mem (by simp) hdistinct hmem
  | none =>
    apply Std.ExtTreeMap.getElem?_ofList_of_contains_eq_false
    by_contra hcontains
    simp only [Bool.not_eq_false, List.contains_iff_mem, List.mem_map] at hcontains
    obtain ⟨⟨key', x⟩, hmem, rfl⟩ := hcontains
    have hget := Std.ExtTreeMap.mem_toList_iff_getElem?_eq_some.mp (h.mem_iff.mp hmem)
    rw [hkey] at hget
    contradiction

theorem itemsTrip_map {h : Handler α} {entries : List (String × α)}
    (hkeys : ∀ kv ∈ entries, CleanKey kv.1 ∧ h.RoundTrips kv.2) (map : Std.ExtTreeMap String α) :
    ItemsTrip multi (fun kv : String × Writer Unit => writeObjectKeyValue kv.1 kv.2)
      (fun map => do let key ← readKey; insertItem h key map)
      (entries.map fun kv => (kv.1, h.write kv.2)) map
      (entries.foldl (fun map kv => map.insert kv.1 kv.2) map) := by
  induction entries generalizing map with
  | nil => exact ItemsTrip.nil
  | cons kv entries ih =>
    obtain ⟨hkey, hx⟩ := hkeys kv List.mem_cons_self
    have hone : ItemTrips multi (writeObjectKeyValue kv.1 (h.write kv.2))
        (fun map => do let key ← readKey; insertItem h key map) map (map.insert kv.1 kv.2) :=
      itemTrips_object hkey hx rfl
    exact ItemsTrip.cons hone (ih (fun kv hkv => hkeys kv (List.mem_cons_of_mem _ hkv)) _)

/-- The order in which the map gives its entries is of no matter to the reader. -/
theorem map_roundTrips {entries : Std.ExtTreeMap String α → List (String × α)} {h : Handler α}
    {map : Std.ExtTreeMap String α} (hperm : (entries map).Perm map.toList)
    (hkeys : ∀ kv ∈ map.toList, CleanKey kv.1 ∧ h.RoundTrips kv.2) :
    (mapHandler entries h).RoundTrips map := by
  intro multi
  have htrip : ItemsTrip ((map.size > 1 : Bool) :: multi)
      (fun kv : String × Writer Unit => writeObjectKeyValue kv.1 kv.2)
      (fun map => do let key ← readKey; insertItem h key map)
      ((entries map).map fun kv => (kv.1, h.write kv.2)) ∅
      ((entries map).foldl (fun map kv => map.insert kv.1 kv.2) ∅) :=
    itemsTrip_map (fun kv hkv => hkeys kv (hperm.mem_iff.mp hkv)) ∅
  rw [foldl_insert_perm hperm] at htrip
  obtain ⟨text, hvalue, hwrite, hread⟩ :=
    htrip.scope '{' (loopsOver_object (insertItem h)) rfl (by decide)
  exact ⟨text, hvalue, hwrite, fun sp f hsp => (hread sp f hsp).follow fun _ _ => trivial⟩

/-- What the fields of an object make of a record, one after the other. -/
inductive FieldsTrip (fields : List (FieldEntry ρ)) : List (String × Writer Unit) → ρ → ρ → Prop
  | nil {r : ρ} : FieldsTrip fields [] r r
  | cons {β : Type} {field : FieldEntry ρ} {h : Handler β} {x : β} {store : ρ → β → ρ} {r r' : ρ}
      {items : List (String × Writer Unit)} (find : fields.find? (·.key = field.key) = some field)
      (read : ∀ r, field.read r = do return store r (← h.read)) (clean : CleanKey field.key)
      (trips : h.RoundTrips x) (rest : FieldsTrip fields items (store r x) r') :
      FieldsTrip fields ((field.key, h.write x) :: items) r r'

theorem FieldsTrip.items {fields : List (FieldEntry ρ)} {items : List (String × Writer Unit)} {r r' : ρ}
    (h : FieldsTrip fields items r r') (visited : List String) :
    ItemsTrip multi (fun kv : String × Writer Unit => writeObjectKeyValue kv.1 kv.2)
      (fun r => do let key ← readKey; readField fields key r) items (visited, r)
      ((items.map Prod.fst).reverse ++ visited, r') := by
  induction h generalizing visited with
  | nil => exact ItemsTrip.nil
  | @cons β field h x store r r' items hfind hread hclean htrips _ ih =>
    have hstep : readField fields field.key (visited, r) =
        do return (field.key :: visited, store r (← h.read)) := by
      simp [readField, hfind, hread]
    have hone : ItemTrips multi (writeObjectKeyValue field.key (h.write x))
        (fun r => do let key ← readKey; readField fields key r) (visited, r)
        (field.key :: visited, store r x) := itemTrips_object hclean htrips hstep
    apply ItemsTrip.cons (i := (field.key, h.write x)) hone
    simpa using ih (field.key :: visited)

theorem reads_checkFields {fields : List (FieldEntry ρ)} {visited : List String} {f : List ℕ}
    (h : ∀ field ∈ fields, field.optional = false → field.key ∈ visited) :
    Reads (checkFields fields visited) f f [] Anything () := by
  have hcheck : ∀ sorted : List (FieldEntry ρ), (∀ field ∈ sorted, field ∈ fields) →
      Reads (sorted.forM fun field => check (field.optional || visited.contains field.key) fun s =>
        "JSONReader: Missing field \"" ++ field.key ++ "\"\n At " ++ lineInfo s) f f [] Anything () := by
    intro sorted hsorted
    induction sorted with
    | nil => exact Reads.pure
    | cons field sorted ih =>
      obtain ⟨hfield, hrest⟩ := List.forall_mem_cons.mp hsorted
      have hpass : (field.optional || visited.contains field.key) = true := by
        cases hoptional : field.optional with
        | true => rfl
        | false => simpa using h field hfield hoptional
      exact (reads_check hpass).bind (ih hrest) fun _ _ => trivial
  unfold checkFields
  split_ifs
  · exact hcheck _ fun field hfield => List.mem_mergeSort.mp hfield
  · exact Reads.pure

/-- An object is read back if its fields are known and none that is needed is missing. -/
theorem allFields_trip {fields : List (FieldEntry ρ)} {items : List (String × Writer Unit)} {r r' : ρ}
    (h : FieldsTrip fields items r r')
    (hrequired : ∀ field ∈ fields, field.optional = false → field.key ∈ items.map Prod.fst)
    (multiLine : Bool) (multi : List Bool) : ∃ text, IsValue text ∧
      (∀ counts, Writes (writeObject multiLine items) (counts, multi) (counts, multi) text) ∧
      ∀ sp f, Spaces sp → Reads (readAllFields fields r) f f (sp ++ text) EndsNumber r' := by
  have hitems : ItemsTrip (multiLine :: multi)
      (fun kv : String × Writer Unit => writeObjectKeyValue kv.1 kv.2)
      (fun r => do let key ← readKey; readField fields key r) items ([], r)
      ((items.map Prod.fst).reverse ++ [], r') := h.items []
  obtain ⟨text, hvalue, hwrite, hread⟩ :=
    hitems.scope '{' (loopsOver_object (readField fields)) rfl (by decide)
  refine ⟨text, hvalue, hwrite, fun sp f hsp => ?_⟩
  have hchecks : Reads (do checkFields fields ((items.map Prod.fst).reverse ++ []); return r')
      f f [] EndsNumber r' := by
    have hcheck : Reads (checkFields fields ((items.map Prod.fst).reverse ++ [])) f f [] Anything () :=
      reads_checkFields fun field hfield hoptional => by
        simpa using hrequired field hfield hoptional
    exact hcheck.bind Reads.pure fun _ _ => trivial
  have hall := (hread sp f hsp).bind
    (k := fun p => do checkFields fields p.1; return p.2) hchecks fun _ _ => trivial
  rw [List.append_nil] at hall
  rw [readAllFields, beginObject]
  simpa using hall

theorem FieldsTrip.append {fields : List (FieldEntry ρ)} {items items' : List (String × Writer Unit)}
    {r r₁ r₂ : ρ} (h : FieldsTrip fields items r r₁) (h' : FieldsTrip fields items' r₁ r₂) :
    FieldsTrip fields (items ++ items') r r₂ := by
  induction h with
  | nil => exact h'
  | cons hfind hread hclean htrips _ ih => exact FieldsTrip.cons hfind hread hclean htrips (ih h')

/-- A key of which every character is looked at. -/
theorem CleanKey.of_all {key : String}
    (h : (key.toList.all fun c => c != '"' && c != '\\' && c != '\r' && c != '\n') = true) :
    CleanKey key := by
  intro c hc
  have hclean := List.all_eq_true.mp h c hc
  simp only [Bool.and_eq_true, bne_iff_ne] at hclean
  exact ⟨hclean.1.1.1, hclean.1.1.2, hclean.1.2, hclean.2⟩

section OneField
variable {β : Type} (fields : List (FieldEntry ρ)) (key : String) (h : Handler β)
  (store : ρ → β → ρ) {optional : Bool} {x : β} {r : ρ}
  (hfind : fields.find? (·.key = key) = some ⟨key, optional, fun r => do return store r (← h.read)⟩)
  (hkey : CleanKey key)
include hfind hkey

theorem fieldsTrip_one (hx : h.RoundTrips x) :
    FieldsTrip fields [(key, h.write x)] r (store r x) := by
  have hread : ∀ r, (⟨key, optional, fun r => do return store r (← h.read)⟩ : FieldEntry ρ).read r =
      do return store r (← h.read) := fun _ => rfl
  exact FieldsTrip.cons hfind hread hkey hx FieldsTrip.nil

/-- A field that is only written if it is not the default. -/
theorem fieldsTrip_optional {c : Prop} [Decidable c] (hx : h.RoundTrips x)
    (hdefault : ¬ c → store r x = r) :
    FieldsTrip fields (if c then [(key, h.write x)] else []) r (store r x) := by
  split_ifs with hc
  · exact fieldsTrip_one fields key h store hfind hkey hx
  · rw [hdefault hc]
    exact FieldsTrip.nil

end OneField

end Handlers

end Json
end NetStorm
