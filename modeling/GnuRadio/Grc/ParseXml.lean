import GnuRadio.Grc.Python
import GnuRadio.Misc.Except
import GnuRadio.Misc.OrderedMap

/-!
# Files of flow graphs

Nested data becomes a tree of XML elements and is read back from one. An element without children is
a string, and what occurs more than once among the children of an element is a list.
-/

namespace GnuRadio

/-- Nested data. -/
inductive Nested where
  | str (s : Text)
  | odict (entries : List (Text × Nested))
  | list (items : List Nested)

/-- An element of an XML tree. -/
inductive Element where
  | node (tag : Text) (text : Option Text) (children : List Element)

/-! ## Reading -/

/-- The values of the children so far, in lists. -/
abbrev NestedData := OrderedMap Text (List Nested)

/-- A round of the loop over the children (`ParseXML.py:66-68`). -/
def NestedData.add (nestedData : NestedData) (item : Text × Nested) : NestedData :=
  if has : item.1 ∈ nestedData.keys then
    nestedData.replace item.1
      (((nestedData.entries.find? (·.1 = item.1)).map (·.2)).getD [] ++ [item.2])
  else nestedData.append item.1 [item.2] has

/-- A list of one value is that value (`ParseXML.py:70-71`). -/
def delistify : List Nested → Nested
  | [value] => value
  | values => .list values

mutual

/-- The item of the odict that `_from_file` returns (`ParseXML.py:54-72`). -/
def fromFileItem : Element → Text × Nested
  | .node tag text [] => (tag, .str (text.getD []))
  | .node tag _ (child :: children) =>
      let items := fromFileItem child :: fromFileItems children
      let nestedData := items.foldl NestedData.add ⟨[], List.nodup_nil⟩
      (tag, .odict (nestedData.entries.map fun entry => (entry.1, delistify entry.2)))

def fromFileItems : List Element → List (Text × Nested)
  | [] => []
  | child :: children => fromFileItem child :: fromFileItems children

end

/-- `from_file`. -/
def fromFile (xml : Element) : Nested := .odict [fromFileItem xml]

/-! ## Writing -/

/-- A list inside a list has no `iteritems`. -/
def attributeError : PyError := .exception "'list' object has no attribute 'iteritems'"

mutual

/-- The node of one value (`ParseXML.py:94-97`). -/
def toNode (key : Text) : Nested → Except PyError Element
  | .str s => .ok (.node key (some s) [])
  | .odict entries => do
      let children ← toFile entries
      return .node key none children
  | .list _ => .error attributeError

/-- `_to_file` (`ParseXML.py:82-98`). -/
def toFile : List (Text × Nested) → Except PyError (List Element)
  | [] => .ok []
  | (key, .list values) :: nestedData => do
      let nodes ← toNodes key values
      let rest ← toFile nestedData
      return nodes ++ rest
  | (key, value) :: nestedData => do
      let node ← toNode key value
      let rest ← toFile nestedData
      return node :: rest

def toNodes (key : Text) : List Nested → Except PyError (List Element)
  | [] => .ok []
  | value :: values => do
      let node ← toNode key value
      let rest ← toNodes key values
      return node :: rest

end

/-- The tree that `to_file` writes: the first of the nodes (`ParseXML.py:80`). -/
def toFileXml (nestedData : List (Text × Nested)) : Except PyError Element := do
  match ← toFile nestedData with
  | [] => .error .indexError
  | xml :: _ => return xml

/-! ## Data that a tree can hold -/

mutual

/-- A string, or an odict that is not empty. -/
def Nested.Single : Nested → Prop
  | .str _ => True
  | .odict entries => entries ≠ [] ∧ (entries.map Prod.fst).Nodup ∧ Values entries
  | .list _ => False

/-- The values are single, or lists of at least two of these. -/
def Values : List (Text × Nested) → Prop
  | [] => True
  | (_, .list values) :: entries => 2 ≤ values.length ∧ Singles values ∧ Values entries
  | (_, value) :: entries => value.Single ∧ Values entries

def Singles : List Nested → Prop
  | [] => True
  | value :: values => value.Single ∧ Singles values

end

mutual

/-- What a file keeps of a tree: the text of an element counts only if it has no children, and no
text is the same as an empty one. -/
def Element.content : Element → Element
  | .node tag text [] => .node tag (some (text.getD [])) []
  | .node tag _ (child :: children) => .node tag none (child.content :: contents children)

def contents : List Element → List Element
  | [] => []
  | child :: children => child.content :: contents children

end

mutual

theorem fromFileItem_content (xml : Element) : fromFileItem xml.content = fromFileItem xml := by
  match xml with
  | .node tag text [] => rfl
  | .node tag text (child :: children) =>
    rw [Element.content, fromFileItem, fromFileItem, fromFileItem_content child,
      fromFileItems_contents children]

theorem fromFileItems_contents (children : List Element) :
    fromFileItems (contents children) = fromFileItems children := by
  match children with
  | [] => rfl
  | child :: children =>
    rw [contents, fromFileItems, fromFileItems, fromFileItem_content child,
      fromFileItems_contents children]

end

theorem fromFileItems_eq_map (children : List Element) :
    fromFileItems children = children.map fromFileItem := by
  induction children with
  | nil => rfl
  | cons child children ih => rw [fromFileItems, ih, List.map_cons]

theorem fromFileItem_cons {tag : Text} {text : Option Text} {children : List Element}
    (some : children ≠ []) :
    fromFileItem (.node tag text children) =
      (tag, .odict (((children.map fromFileItem).foldl NestedData.add
        ⟨[], List.nodup_nil⟩).entries.map fun entry => (entry.1, delistify entry.2))) := by
  obtain ⟨child, children, rfl⟩ := List.exists_cons_of_ne_nil some
  rw [fromFileItem, fromFileItems_eq_map]
  rfl

/-! ## The children of one key -/

namespace NestedData

variable {m : NestedData} {key : Text} {values : List Nested}

theorem add_new (new : key ∉ m.keys) (value : Nested) :
    (m.add (key, value)).entries = m.entries ++ [(key, [value])] := by
  rw [add, dif_neg new]
  rfl

theorem add_last {entries : List (Text × List Nested)}
    (known : m.entries = entries ++ [(key, values)]) (value : Nested) :
    (m.add (key, value)).entries = entries ++ [(key, values ++ [value])] := by
  have nodup := m.nodup
  rw [known, List.map_append, List.nodup_append] at nodup
  have others : ∀ entry ∈ entries, entry.1 ≠ key := fun entry member =>
    nodup.2.2 entry.1 (List.mem_map_of_mem member) key List.mem_cons_self
  have has : key ∈ m.keys := by
    rw [OrderedMap.keys, known, List.map_append]
    exact List.mem_append_right _ List.mem_cons_self
  have found : m.entries.find? (·.1 = key) = some (key, values) := by
    rw [known, List.find?_append, List.find?_eq_none.mpr fun entry member same =>
      others entry member (of_decide_eq_true same)]
    simp
  rw [add, dif_pos has, OrderedMap.replace]
  dsimp only
  rw [found, known, List.map_append, List.map_congr_left fun entry member =>
    if_neg (others entry member), List.map_id']
  simp

theorem foldl_add (new : key ∉ m.keys) (some : values ≠ []) :
    ((values.map fun value => (key, value)).foldl add m).entries =
      m.entries ++ [(key, values)] := by
  obtain ⟨value, values, rfl⟩ := List.exists_cons_of_ne_nil some
  have general : ∀ (rest before : List Nested) (m' : NestedData),
      m'.entries = m.entries ++ [(key, before)] →
      ((rest.map fun value => (key, value)).foldl add m').entries =
        m.entries ++ [(key, before ++ rest)] := by
    intro rest
    induction rest with
    | nil =>
      intro before m' known
      rw [List.append_nil]
      exact known
    | cons next rest ih =>
      intro before m' known
      rw [List.map_cons, List.foldl_cons, ih (before ++ [next]) _ (add_last known next),
        List.append_assoc]
      rfl
  exact general values [value] _ (add_new new value)

end NestedData

/-! ## The round trip -/

/-- The values of an entry (`ParseXML.py:90-92`). -/
def listify : Nested → List Nested
  | .list values => values
  | value => [value]

variable {entries : List (Text × Nested)}

theorem Values.listify (values : Values entries) :
    ∀ entry ∈ entries, GnuRadio.listify entry.2 ≠ [] ∧
      delistify (GnuRadio.listify entry.2) = entry.2 := by
  induction entries with
  | nil =>
    intro entry member
    cases member
  | cons first entries ih =>
    obtain ⟨key, value⟩ := first
    intro entry member
    cases value with
    | list items =>
      obtain ⟨two, -, rest⟩ := values
      rcases List.mem_cons.mp member with rfl | later
      · match items, two with
        | a :: b :: items, _ => exact ⟨List.cons_ne_nil _ _, rfl⟩
      · exact ih rest entry later
    | str s =>
      rcases List.mem_cons.mp member with rfl | later
      · exact ⟨List.cons_ne_nil _ _, rfl⟩
      · exact ih values.2 entry later
    | odict inner =>
      rcases List.mem_cons.mp member with rfl | later
      · exact ⟨List.cons_ne_nil _ _, rfl⟩
      · exact ih values.2 entry later

/-- What is read of the children for the entries, one after another. -/
def itemsOf (entries : List (Text × Nested)) : List (Text × Nested) :=
  entries.flatMap fun entry => (listify entry.2).map fun value => (entry.1, value)

theorem foldl_itemsOf (some : ∀ entry ∈ entries, listify entry.2 ≠ [])
    (nodup : (entries.map Prod.fst).Nodup) {m : NestedData}
    (new : ∀ entry ∈ entries, entry.1 ∉ m.keys) :
    ((itemsOf entries).foldl NestedData.add m).entries =
      m.entries ++ entries.map fun entry => (entry.1, listify entry.2) := by
  induction entries generalizing m with
  | nil => exact (List.append_nil _).symm
  | cons entry entries ih =>
    rw [List.map_cons, List.nodup_cons] at nodup
    have first := NestedData.foldl_add (new entry List.mem_cons_self)
      (some entry List.mem_cons_self)
    have new' : ∀ other ∈ entries, other.1 ∉
        (((listify entry.2).map fun value => (entry.1, value)).foldl NestedData.add m).keys := by
      intro other member inside
      rw [OrderedMap.keys, first, List.map_append, List.mem_append] at inside
      rcases inside with before | here
      · exact new other (List.mem_cons_of_mem entry member) before
      · have same : other.1 = entry.1 := List.mem_singleton.mp here
        exact nodup.1 (same ▸ List.mem_map_of_mem member)
    have rest := ih (fun other member => some other (List.mem_cons_of_mem entry member)) nodup.2
      new'
    rw [itemsOf, List.flatMap_cons, List.foldl_append]
    rw [itemsOf] at rest
    rw [rest, first, List.append_assoc]
    rfl

theorem toFile_cons {key : Text} {value : Nested} (single : value.Single)
    (entries : List (Text × Nested)) {node : Element} (written : toNode key value = .ok node)
    {nodes : List Element} (rest : toFile entries = .ok nodes) :
    toFile ((key, value) :: entries) = .ok (node :: nodes) := by
  cases value with
  | list values => exact single.elim
  | str s =>
    have unfolded : toFile ((key, .str s) :: entries) = do
        let node ← toNode key (.str s)
        let rest ← toFile entries
        return node :: rest := rfl
    rw [unfolded, written, ok_bind, rest, ok_bind]
    rfl
  | odict inner =>
    have unfolded : toFile ((key, .odict inner) :: entries) = do
        let node ← toNode key (.odict inner)
        let rest ← toFile entries
        return node :: rest := rfl
    rw [unfolded, written, ok_bind, rest, ok_bind]
    rfl

mutual

theorem toNode_spec (key : Text) (value : Nested) (single : value.Single) :
    ∃ node, toNode key value = .ok node ∧ fromFileItem node = (key, value) := by
  match value with
  | .str s => exact ⟨_, rfl, rfl⟩
  | .list values => exact single.elim
  | .odict entries =>
    obtain ⟨some, nodup, values⟩ := single
    obtain ⟨children, written, read⟩ := toFile_spec entries values
    have listified := values.listify
    have filled : children ≠ [] := by
      rintro rfl
      obtain ⟨entry, entries, rfl⟩ := List.exists_cons_of_ne_nil some
      have empty := congrArg List.length read
      have long := List.length_pos_of_ne_nil (listified entry List.mem_cons_self).1
      rw [itemsOf, List.flatMap_cons, List.length_append, List.length_map, List.length_map,
        List.length_nil] at empty
      omega
    refine ⟨.node key none children, by rw [toNode, written, ok_bind]; rfl, ?_⟩
    rw [fromFileItem_cons filled, read, foldl_itemsOf (fun entry member =>
      (listified entry member).1) nodup (fun _ _ => List.not_mem_nil), List.nil_append,
      List.map_map]
    have same : entries.map ((fun entry : Text × List Nested => (entry.1, delistify entry.2)) ∘
        fun entry => (entry.1, listify entry.2)) = entries :=
      (List.map_congr_left fun entry member => by
        rw [Function.comp_apply, (listified entry member).2]).trans (List.map_id' entries)
    rw [same]

theorem toFile_spec (entries : List (Text × Nested)) (values : Values entries) :
    ∃ nodes, toFile entries = .ok nodes ∧ nodes.map fromFileItem = itemsOf entries := by
  match entries with
  | [] => exact ⟨[], rfl, rfl⟩
  | (key, .list items) :: entries =>
    obtain ⟨-, singles, rest⟩ := values
    obtain ⟨nodes, written, read⟩ := toNodes_spec key items singles
    obtain ⟨nodes', written', read'⟩ := toFile_spec entries rest
    refine ⟨nodes ++ nodes', by rw [toFile, written, ok_bind, written', ok_bind]; rfl, ?_⟩
    rw [List.map_append, read, read', itemsOf, itemsOf, List.flatMap_cons]
    rfl
  | (key, .str s) :: entries =>
    obtain ⟨node, written, read⟩ := toNode_spec key (.str s) values.1
    obtain ⟨nodes', written', read'⟩ := toFile_spec entries values.2
    refine ⟨node :: nodes', toFile_cons values.1 entries written written', ?_⟩
    rw [List.map_cons, read, read', itemsOf, itemsOf, List.flatMap_cons]
    rfl
  | (key, .odict inner) :: entries =>
    obtain ⟨node, written, read⟩ := toNode_spec key (.odict inner) values.1
    obtain ⟨nodes', written', read'⟩ := toFile_spec entries values.2
    refine ⟨node :: nodes', toFile_cons values.1 entries written written', ?_⟩
    rw [List.map_cons, read, read', itemsOf, itemsOf, List.flatMap_cons]
    rfl

theorem toNodes_spec (key : Text) (values : List Nested) (singles : Singles values) :
    ∃ nodes, toNodes key values = .ok nodes ∧
      nodes.map fromFileItem = values.map fun value => (key, value) := by
  match values with
  | [] => exact ⟨[], rfl, rfl⟩
  | value :: values =>
    obtain ⟨node, written, read⟩ := toNode_spec key value singles.1
    obtain ⟨nodes, written', read'⟩ := toNodes_spec key values singles.2
    refine ⟨node :: nodes, by rw [toNodes, written, ok_bind, written', ok_bind]; rfl, ?_⟩
    rw [List.map_cons, List.map_cons, read, read']

end

/-- The only item of an odict is a single value: whatever is read back with the content of the tree
is read as that odict, keys in order. -/
theorem fromFile_toFileXml (key : Text) (value : Nested) (single : value.Single) :
    ∃ xml, toFileXml [(key, value)] = .ok xml ∧
      ∀ xml', xml'.content = xml.content → fromFile xml' = .odict [(key, value)] := by
  obtain ⟨xml, written, read⟩ := toNode_spec key value single
  refine ⟨xml, ?_, fun xml' same => ?_⟩
  · rw [toFileXml, toFile_cons single [] written rfl]
    rfl
  · rw [fromFile, ← fromFileItem_content, same, fromFileItem_content, read]

/-- A list of a string and an odict, behind another key. -/
theorem fromFile_toFileXml_list :
    ∃ xml, toFileXml [(['f'], .odict [(['k'], .str []),
        (['b'], .list [.str ['1'], .odict [(['p'], .str ['2'])]])])] = .ok xml ∧
      ∀ xml', xml'.content = xml.content →
        fromFile xml' = .odict [(['f'], .odict [(['k'], .str []),
          (['b'], .list [.str ['1'], .odict [(['p'], .str ['2'])]])])] :=
  fromFile_toFileXml ['f'] _ (by simp [Nested.Single, Values, Singles])

/-- Of a list at the root only the first value is written. -/
theorem toFileXml_rootList :
    toFileXml [(['f'], .list [.str ['1'], .str ['2']])] = .ok (.node ['f'] (some ['1']) []) ∧
      fromFile (.node ['f'] (some ['1']) []) = .odict [(['f'], .str ['1'])] ∧
      fromFile (.node ['f'] (some ['1']) []) ≠
        .odict [(['f'], .list [.str ['1'], .str ['2']])] := by
  refine ⟨rfl, rfl, fun same => ?_⟩
  injection same with items
  injection items with item
  injection item with _ value
  cases value

end GnuRadio
