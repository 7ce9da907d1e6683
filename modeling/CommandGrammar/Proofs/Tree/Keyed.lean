import CommandGrammar.Proofs.Tree.Built

/-!
# Children under keys

The children of a node stand in a map here, and nothing ties the key of a child to its name: whoever
is found under a key and changed is put back under that key. Step by step these trees are those of
`Node` with every child under its own name. The map is listed by its keys; since no two children
share a name, they may be added in any order (`Node.addTo_comm`).
-/

namespace CommandGrammar

/-- A node and its children with their keys, ascending. -/
structure KeyedNode (Source Value : Type) where
  header : NodeHeader Source Value
  children : List (String × KeyedNode Source Value)

namespace KeyedNode

variable {Source Value : Type}

def name (k : KeyedNode Source Value) : String := k.header.name

def child? (k : KeyedNode Source Value) (key : String) : Option (KeyedNode Source Value) :=
  k.children.lookup key

/-- The node at the end of a path of keys. -/
def at? (k : KeyedNode Source Value) : List String → Option (KeyedNode Source Value)
  | [] => some k
  | key :: path => (k.child? key).bind fun c => c.at? path

/-- Puts a node under a key, in place of one that stands there. -/
def put (key : String) (k : KeyedNode Source Value) :
    List (String × KeyedNode Source Value) → List (String × KeyedNode Source Value)
  | [] => [(key, k)]
  | (other, m) :: entries =>
    if key = other then (key, k) :: entries
    else if key < other then (key, k) :: (other, m) :: entries
    else (other, m) :: put key k entries

mutual

def addTo : KeyedNode Source Value → KeyedNode Source Value → KeyedNode Source Value
  | ⟨h, children⟩, parent =>
    match parent.header.kind with
    | .literal _ => ⟨parent.header, put h.name ⟨h, children⟩ parent.children⟩
    | .argument _ =>
      match parent.child? h.name with
      | some old => ⟨parent.header, put h.name (addAllTo children old) parent.children⟩
      | none => ⟨parent.header, put h.name ⟨h, children⟩ parent.children⟩

/-- Adds what stands in a map, without regard to the keys. -/
def addAllTo :
    List (String × KeyedNode Source Value) → KeyedNode Source Value → KeyedNode Source Value
  | [], parent => parent
  | (_, c) :: entries, parent => addAllTo entries (addTo c parent)

end

def build (header : NodeHeader Source Value) (children : List (KeyedNode Source Value)) :
    KeyedNode Source Value :=
  children.foldl (fun parent c => c.addTo parent) ⟨header, []⟩

/-- Changes the node at the end of a path of keys, which all stay. -/
def modifyAt? (f : KeyedNode Source Value → KeyedNode Source Value) :
    List String → KeyedNode Source Value → Option (KeyedNode Source Value)
  | [], k => some (f k)
  | key :: path, k => do
    let c ← k.child? key
    let c' ← modifyAt? f path c
    return ⟨k.header, put key c' k.children⟩

/-- Every child stands under its own name, and no two children share one, at any depth. -/
inductive KeptByName : KeyedNode Source Value → Prop where
  | node {h : NodeHeader Source Value} {children : List (String × KeyedNode Source Value)}
      (hkeys : ∀ entry ∈ children, entry.1 = entry.2.name)
      (hnodup : (children.map fun entry => entry.2.name).Nodup)
      (hchildren : ∀ entry ∈ children, KeptByName entry.2) : KeptByName ⟨h, children⟩

/-- No key is taken twice, since they ascend. -/
def KeysAscend (k : KeyedNode Source Value) : Prop :=
  k.children.Pairwise fun first second => first.1 < second.1

theorem length_put (key : String) (k : KeyedNode Source Value)
    {entries : List (String × KeyedNode Source Value)}
    (h : entries.Pairwise fun first second => first.1 < second.1) :
    (put key k entries).length
      = if (entries.lookup key).isSome then entries.length else entries.length + 1 := by
  induction entries with
  | nil => rfl
  | cons entry entries ih =>
      obtain ⟨other, m⟩ := entry
      obtain ⟨hfirst, hrest⟩ := List.pairwise_cons.mp h
      rw [put]
      rcases lt_trichotomy key other with hlt | rfl | hgt
      · have hnone : ((other, m) :: entries).lookup key = none := by
          refine List.lookup_eq_none_iff.mpr (List.forall_mem_cons.mpr ⟨?_, fun entry hentry => ?_⟩)
          · exact bne_iff_ne.mpr (ne_of_lt hlt)
          · exact bne_iff_ne.mpr (ne_of_lt (hlt.trans (hfirst entry hentry)))
        rw [if_neg (ne_of_lt hlt), if_pos hlt, hnone]
        rfl
      · rw [if_pos rfl, List.lookup_cons_self]
        rfl
      · rw [if_neg (ne_of_gt hgt), if_neg (lt_asymm hgt), List.length_cons, ih hrest,
          List.lookup_cons, beq_false_of_ne (ne_of_gt hgt), List.length_cons]
        split_ifs <;> rfl

theorem exists_children_addTo_eq_put (c parent : KeyedNode Source Value) :
    ∃ k, (c.addTo parent).children = put c.name k parent.children := by
  obtain ⟨h, children⟩ := c
  rw [addTo]
  cases parent.header.kind with
  | literal caseSensitive => exact ⟨_, rfl⟩
  | argument parser =>
      dsimp only
      cases parent.child? h.name with
      | none => exact ⟨_, rfl⟩
      | some old => exact ⟨_, rfl⟩

/-- One more child is one more unless its name is taken. -/
theorem length_children_addTo {parent : KeyedNode Source Value} (h : parent.KeysAscend)
    (c : KeyedNode Source Value) :
    (c.addTo parent).children.length
      = if (parent.child? c.name).isSome then parent.children.length
        else parent.children.length + 1 := by
  obtain ⟨k, hput⟩ := exists_children_addTo_eq_put c parent
  rw [hput, length_put c.name k h, child?]

end KeyedNode

namespace Node

variable {Source Value : Type}

mutual

/-- The tree with every child under its own name. -/
def keyed : Node Source Value → KeyedNode Source Value
  | ⟨h, children⟩ => ⟨h, keyedAll children⟩

def keyedAll : List (Node Source Value) → List (String × KeyedNode Source Value)
  | [] => []
  | c :: children => (c.name, c.keyed) :: keyedAll children

end

theorem keyedAll_eq_map (ms : List (Node Source Value)) :
    keyedAll ms = ms.map fun c => (c.name, c.keyed) := by
  induction ms with
  | nil => rfl
  | cons c ms ih => rw [keyedAll, ih, List.map_cons]

theorem header_keyed (n : Node Source Value) : n.keyed.header = n.header := by
  cases n
  rfl

theorem name_keyed (n : Node Source Value) : n.keyed.name = n.name := by
  rw [KeyedNode.name, header_keyed, name]

theorem children_keyed (n : Node Source Value) : n.keyed.children = keyedAll n.children := by
  cases n
  rfl

/-! ### Steps -/

theorem lookup_keyedAll (ms : List (Node Source Value)) (key : String) :
    (keyedAll ms).lookup key = (ms.find? fun c => c.name == key).map keyed := by
  induction ms with
  | nil => rfl
  | cons c ms ih =>
      rw [keyedAll, List.lookup_cons, List.find?_cons, ih]
      by_cases hkey : c.name = key
      · rw [hkey, beq_self_eq_true, Option.map_some]
      · rw [beq_false_of_ne hkey, beq_false_of_ne (Ne.symm hkey)]

theorem child?_keyed (n : Node Source Value) (key : String) :
    n.keyed.child? key = (n.child? key).map keyed := by
  rw [KeyedNode.child?, children_keyed, lookup_keyedAll, child?]

theorem at?_keyed (n : Node Source Value) (path : List String) :
    n.keyed.at? path = (n.at? path).map keyed := by
  induction path generalizing n with
  | nil => rfl
  | cons key path ih =>
      rw [KeyedNode.at?, child?_keyed, at?_cons]
      cases n.child? key with
      | none => rfl
      | some c => exact ih c

theorem at?_keyed_eq_some_iff {n : Node Source Value} {path : List String}
    {k : KeyedNode Source Value} :
    n.keyed.at? path = some k ↔ ∃ m, n.at? path = some m ∧ m.keyed = k := by
  rw [at?_keyed, Option.map_eq_some_iff]

theorem put_keyedAll (n : Node Source Value) (ms : List (Node Source Value)) :
    KeyedNode.put n.name n.keyed (keyedAll ms) = keyedAll (put n ms) := by
  induction ms with
  | nil => rfl
  | cons m ms ih =>
      rw [keyedAll, KeyedNode.put, put, ih]
      split_ifs <;> rfl

mutual

/-- A child that is found under its name and changed keeps its name, and so its key. -/
theorem addTo_keyed : ∀ c parent : Node Source Value,
    c.keyed.addTo parent.keyed = (c.addTo parent).keyed
  | ⟨h, children⟩, parent => by
    have hput := put_keyedAll ⟨h, children⟩ parent.children
    rw [keyed, KeyedNode.addTo, addTo, header_keyed, child?_keyed, children_keyed]
    cases parent.header.kind with
    | literal caseSensitive => exact congrArg (KeyedNode.mk parent.header) hput
    | argument parser =>
        cases hold : parent.child? h.name with
        | none => exact congrArg (KeyedNode.mk parent.header) hput
        | some old =>
            have hname : (addAllTo children old).name = h.name := by
              rw [name_addAllTo, name_eq_of_child? hold]
            have hmerged := put_keyedAll (addAllTo children old) parent.children
            rw [hname, ← addAllTo_keyedAll children old] at hmerged
            exact congrArg (KeyedNode.mk parent.header) hmerged

theorem addAllTo_keyedAll : ∀ (cs : List (Node Source Value)) (parent : Node Source Value),
    KeyedNode.addAllTo (keyedAll cs) parent.keyed = (addAllTo cs parent).keyed
  | [], parent => by
    rw [keyedAll, KeyedNode.addAllTo, addAllTo]
  | c :: cs, parent => by
    rw [keyedAll, KeyedNode.addAllTo, addAllTo, addTo_keyed c parent, addAllTo_keyedAll cs]

end

theorem build_keyed (h : NodeHeader Source Value) (cs : List (Node Source Value)) :
    KeyedNode.build h (cs.map keyed) = (build h cs).keyed := by
  rw [KeyedNode.build, List.foldl_map, build, addAllTo_eq_foldl]
  change cs.foldl (fun parent c => c.keyed.addTo parent) (keyed ⟨h, []⟩) = _
  refine List.foldl_hom keyed ?_
  exact fun parent c => addTo_keyed c parent

/-- A change that is the same on both sides and keeps headers is the same in every place. -/
theorem modifyAt?_keyed {f : Node Source Value → Node Source Value}
    {g : KeyedNode Source Value → KeyedNode Source Value} (hf : ∀ m, (f m).header = m.header)
    (hfg : ∀ m, g m.keyed = (f m).keyed) (path : List String) (n : Node Source Value) :
    KeyedNode.modifyAt? g path n.keyed = (modifyAt? f path n).map keyed := by
  induction path generalizing n with
  | nil => exact congrArg some (hfg n)
  | cons key path ih =>
      rw [KeyedNode.modifyAt?, child?_keyed, modifyAt?]
      cases hchild : n.child? key with
      | none => rfl
      | some c =>
          cases hmodify : modifyAt? f path c with
          | none => simp [ih, hmodify]
          | some c' =>
              have hname : c'.name = key := by
                rw [name, header_modifyAt? hf hmodify]
                exact name_eq_of_child? hchild
              have hput := put_keyedAll c' n.children
              simp only [Option.map_some, Option.bind_eq_bind, Option.bind_some, ih, hmodify,
                header_keyed, children_keyed, ← hname, hput]
              rfl

/-! ### Invariants -/

theorem keptByName_keyed {n : Node Source Value} (h : n.NamesDistinct) : n.keyed.KeptByName := by
  induction h with
  | @node h children hnodup _ ih =>
      rw [keyed, keyedAll_eq_map]
      refine .node ?_ ?_ ?_
      · rintro entry hentry
        obtain ⟨c, -, rfl⟩ := List.mem_map.mp hentry
        exact (name_keyed c).symm
      · rw [List.map_map]
        simpa only [Function.comp_def, name_keyed] using hnodup
      · rintro entry hentry
        obtain ⟨c, hc, rfl⟩ := List.mem_map.mp hentry
        exact ih c hc

theorem keysAscend_keyed {n : Node Source Value} (h : Ascending n.children) :
    n.keyed.KeysAscend := by
  rw [KeyedNode.KeysAscend, children_keyed, keyedAll_eq_map]
  exact List.pairwise_map.mpr h

end Node

end CommandGrammar
